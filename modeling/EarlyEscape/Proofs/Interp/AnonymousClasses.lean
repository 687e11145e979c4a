import EarlyEscape.Proofs.Interp.Nothing
import EarlyEscape.Proofs.Interp.Plain
import EarlyEscape.Proofs.Interp.Renamed
import EarlyEscape.Proofs.Interp.Similar

/-!
# Where the code of an anonymous class stands

The initializers of an anonymous class are entered with the new instance, its methods with the new
instance and with the values of the captured variables.  A block that stands as an initializer
records the leak that it records as the body of a method, if it reads none of the captured variables
and no call is left out: it is then entered under another declaration and from fewer references, but
does the same.

## Main definitions

* `ClassDecl.OnlyMethod`, `ClassDecl.withInitializer` : classes with one method and with one
  initializer.
* `Interp.Visited` : what becomes of a call for a new instance.
* `Interp.newInstance` : the creation of an instance up to the code of its class.

## Main results

* `Interp.exists_runInitializers` : what a block does as the code of a method, it does as an
  initializer.
* `Interp.exists_classCode` : the same for the whole code of the class.
* `Interp.exists_exec_withInitializer` : the same for the creation of an instance.
-/

namespace EarlyEscape

/-! ### Classes with one member -/

/-- The only member of the class is an instance method without parameters and with a body. -/
structure ClassDecl.OnlyMethod (t : SymbolTable) (d : ClassDecl) (md : MethodDecl) (body : Block) :
    Prop where
  members : d.members = [.method md]
  body : md.body = some body
  params : md.params = []
  not_constructor : md.isConstructor t = false
  not_static : (Member.method md).isStatic t = false

/-- The class with an initializer of its instances as its only member. -/
def ClassDecl.withInitializer (d : ClassDecl) (b : Block) : ClassDecl :=
  { d with members := [.initializer { b with isStatic := false }] }

namespace ClassDecl

variable {t : SymbolTable} {d : ClassDecl} {md : MethodDecl} {body : Block}

theorem OnlyMethod.methods (h : d.OnlyMethod t md body) : d.methods = [md] := by
  rw [ClassDecl.methods, h.members]
  rfl

theorem OnlyMethod.initializers (h : d.OnlyMethod t md body) : d.initializers t = [] := by
  rw [ClassDecl.initializers, h.members]
  rfl

@[simp] theorem withInitializer_methods (b : Block) : (d.withInitializer b).methods = [] := rfl

@[simp] theorem withInitializer_initializers (b : Block) :
    (d.withInitializer b).initializers t = [.initializer { b with isStatic := false }] := rfl

end ClassDecl

namespace Interp

variable {env : Env} {n : Nat} {s s' s₁ : State}

/-! ### Blocks -/

section Blocks

variable {body : Block}

/-- A block comes to the same end when a running call is entered under another declaration. -/
theorem exists_runBlock_renamed {w : World} {checked : Bool} {guard : Guard} {ties : TieOrder}
    {old new : DeclId} (hw : w.Closed)
    (hfree : ∀ c, Code w c → c.decl = new → c.DoesNothing w)
    (hbody : ∀ n, (Node.ofBlock body).Below n → w.nodes n) (hs : w.Tracked s)
    (h : Renamed old new s s')
    (hrun : runBlock (exec ⟨w.table, w.catalog, checked, guard, ties⟩ n) (some body) s = .ok () s₁)
    (hleft : ¬LeftOut old s s₁) :
    ∃ s₁', runBlock (exec ⟨w.table, w.catalog, checked, guard, ties⟩ n) (some body) s' =
        .ok () s₁' ∧
      Renamed old new s₁ s₁' :=
  (program_block (p := .idle) hbody).renamed hw hfree (exec_renamed hw hfree n)
    (Effects.within_inside fun _ => id) s s' hs h () s₁ hrun hleft

/-- A block comes to the same end without references that nothing inside takes notice of. -/
theorem exists_runBlock_forgets {extra : RefSet} (hbody : (Node.ofBlock body).Overlooks extra)
    (h : Similar false extra s s')
    (hrun : runBlock (exec env n) (some body) s = .ok () s₁) :
    ∃ s₁', runBlock (exec env (n + extra.size)) (some body) s' = .ok () s₁' ∧
      Similar false extra s₁ s₁' := by
  have hprogram : Program (World.all env.table env.catalog) (.ofTask (.stmt (.block body))) .idle
      (fun m => runBlock m.walk (some body)) (fun _ => True) .idle := by
    refine program_runBlock ?_
    rintro b ⟨⟩ s hs x rfl
    refine Effects.covers_child rfl ?_
    simpa [Task.node, Node.children, Node.stmtChildren] using hs
  exact hprogram.similar (exec_forgets n (n + extra.size)) false extra s s' (Nat.le_refl _)
    (Effects.ignores_ofTask hbody) h () s₁ hrun

/-- A block leaves no result behind. -/
theorem idle_runBlock (hin : s.In .idle)
    (hrun : runBlock (exec env n) (some body) s = .ok () s₁) : s₁.In .idle :=
  (program_anyBlock.steady hin hrun).1

end Blocks

/-! ### The block as an initializer -/

section Initializer

variable {body : Block} {d : ClassDecl}

/-- An initializer that runs to its end leaves nothing behind that would be an error. -/
theorem runInitializers_withInitializer (hin : s₁.In .idle)
    (hlist : s₁.refs.isListable env.table = true)
    (hrun : runBlock (exec env n) (some body) s = .ok () s₁) :
    runInitializers env (exec env (n + 1)) (d.withInitializer body) s = .ok () s₁ := by
  have hstmt : exec env (n + 1) (.stmt (.block { body with isStatic := false })) s = .ok () s₁ := by
    change (runBlock (exec env n) (some body) >>= fun _ => checkLeftovers env _) s = _
    refine bind_eq_ok.mpr ⟨(), s₁, hrun, checkLeftovers_eq_ok.mpr ⟨rfl, fun _ => ?_⟩⟩
    exact ⟨hlist, hin.leftover? env⟩
  rw [runInitializers, ClassDecl.withInitializer_initializers]
  change (exec env (n + 1) (.stmt (.block { body with isStatic := false })) >>=
    fun _ => pure ()) s = _
  rw [bind_apply, hstmt]
  rfl

/-- The captured values are those of variables that nothing inside the node reads. -/
def Unread (n : Node) (captured : List Ref) : Prop :=
  ∀ r ∈ captured, ∃ v, r.role = .var v ∧ n.NeverReads v

theorem Unread.overlooks {n : Node} {captured : List Ref} (h : Unread n captured) :
    n.Overlooks (.ofList captured) :=
  fun r hr => .inr (h r (RefSet.mem_ofList.mp hr))

/-- Code that starts with the captured values as well starts as without them. -/
theorem similar_captured (s : State) (seed : RefSet) (captured : List Ref) :
    Similar false (.ofList captured) { s with refs := (seed.insertAll captured).canonical }
      { s with refs := seed.canonical } := by
  refine ⟨fun r => ?_, rfl, rfl, rfl, rfl, rfl⟩
  dsimp only
  rw [RefSet.mem_canonical, RefSet.mem_canonical, RefSet.mem_insertAll, RefSet.mem_ofList, or_comm]

/-- What a block does as the code of a method, from the new instance and the captured values, it
does as an initializer, from the new instance alone. -/
theorem exists_runInitializers {w : World} {checked : Bool} {guard : Guard} {ties : TieOrder}
    {pos : Pos} {md : DeclId} {cls : Option ClassId} {seed : RefSet} {captured : List Ref}
    (hw : w.Closed) (hfree : ∀ c, Code w c → c.decl = d.id → c.DoesNothing w)
    (hbody : ∀ n, (Node.ofBlock body).Below n → w.nodes n)
    (hseed : ∀ r ∈ seed.insertAll captured, w.Tracks r ∧ IsSeed r)
    (hunread : Unread (Node.ofBlock body) captured)
    (hrun : runBlock (exec ⟨w.table, w.catalog, checked, guard, ties⟩ n) (some body)
      (s.called pos md cls (seed.insertAll captured)) = .ok () s₁)
    (hlist : s₁.refs.isListable w.table = true)
    (hleft : ¬LeftOut md (s.called pos md cls (seed.insertAll captured)) s₁) :
    ∃ t, runInitializers ⟨w.table, w.catalog, checked, guard, ties⟩
        (exec ⟨w.table, w.catalog, checked, guard, ties⟩ (n + (RefSet.ofList captured).size + 1))
        (d.withInitializer body) (s.called pos d.id cls seed) = .ok () t ∧
      t.refs.isListable w.table = true ∧ t.pending = s₁.pending := by
  -- first under the declaration of the class, then without the captured values
  have hren : Renamed md d.id (s.called pos md cls (seed.insertAll captured))
      { s.called pos d.id cls seed with refs := (seed.insertAll captured).canonical } := by
    refine ⟨rfl, rfl, rfl, rfl, .cons (.inr ⟨rfl, rfl⟩) ?_, rfl⟩
    exact List.forall₂_same.mpr fun _ _ => .inl rfl
  obtain ⟨s₂, hrun₂, hren₂⟩ := exists_runBlock_renamed hw hfree hbody
    (fun r hr => (hseed r (RefSet.mem_canonical.mp hr)).1) hren hrun hleft
  obtain ⟨t, hrun₃, hsim⟩ := exists_runBlock_forgets hunread.overlooks
    (similar_captured (s.called pos d.id cls seed) seed captured) hrun₂
  have hlist₃ : t.refs.isListable w.table = true :=
    hsim.isListable (hren₂.refs ▸ hlist)
  have hin : t.In .idle := idle_runBlock (s := s.called pos d.id cls seed)
    (State.called_in_idle fun r hr => (hseed r (RefSet.mem_insertAll.mpr (.inr hr))).2) hrun₃
  exact ⟨t, runInitializers_withInitializer hin hlist₃ hrun₃, hlist₃,
    Eq.trans hsim.pending hren₂.pending⟩

/-- Without a new instance the block records no leak as the code of a method. -/
theorem pending_of_captured {pos : Pos} {md : DeclId} {cls : Option ClassId} {captured : List Ref}
    (hunread : Unread (Node.ofBlock body) captured)
    (hrun : runBlock (exec env n) (some body)
      (s.called pos md cls (RefSet.empty.insertAll captured)) = .ok () s₁) :
    s₁.pending = s.pending := by
  obtain ⟨t, hrun', hsim⟩ := exists_runBlock_forgets hunread.overlooks
    (similar_captured (s.called pos md cls (RefSet.empty.insertAll captured)) .empty captured) hrun
  have hstill : Still _ (runBlock (exec env (n + (RefSet.ofList captured).size)) (some body)
      { s.called pos md cls (RefSet.empty.insertAll captured) with
        refs := RefSet.empty.canonical }) := runBlock_still rfl
  rw [hrun'] at hstill
  cases hstill
  exact Eq.symm hsim.pending

end Initializer

/-! ### Calls for a new instance -/

section Visits

variable {pos : Pos} {decl : DeclId} {cls : Option ClassId} {seed : RefSet} {x : Interp Unit}

/-- What becomes of a call for a new instance: there are no references to pass on, it is left out,
or its code runs to its end. -/
inductive Visited (env : Env) (pos : Pos) (decl : DeclId) (cls : Option ClassId) (seed : RefSet)
    (x : Interp Unit) (s : State) : State → Prop
  | unneeded (hempty : seed.isEmpty = true) : Visited env pos decl cls seed x s s
  | leftOut (hne : seed.isEmpty = false) (hcut : isCut env s decl seed = true) :
      Visited env pos decl cls seed x s (s.cut env decl seed)
  | entered {s₁ : State} (hne : seed.isEmpty = false) (hcut : isCut env s decl seed = false)
      (hrun : x (s.called pos decl cls seed) = .ok () s₁)
      (hlist : s₁.refs.isListable env.table = true) :
      Visited env pos decl cls seed x s (s.back s₁)

theorem visited_iff :
    discard (enterSeed env (some pos) decl cls seed x) s = .ok () s' ↔
      Visited env pos decl cls seed x s s' := by
  constructor
  · intro h
    obtain ⟨rs, s₀, hrun, ⟨⟩⟩ := bind_eq_ok.mp h
    unfold enterSeed at hrun
    split at hrun
    · next hempty =>
      cases hrun
      exact .unneeded hempty
    · next hne =>
      have hne : seed.isEmpty = false := Bool.eq_false_iff.mpr hne
      rcases enter_eq_ok.mp hrun with ⟨hcut, rfl, rfl⟩ | ⟨_, s₁, ⟨⟩, hcut, hx, hlist, rfl, rfl⟩
      · exact .leftOut hne hcut
      · exact .entered hne hcut hx hlist
  · intro h
    refine bind_eq_ok.mpr ?_
    unfold enterSeed
    cases h with
    | unneeded hempty => exact ⟨[], s, by rw [if_pos hempty]; rfl, rfl⟩
    | leftOut hne hcut =>
      refine ⟨[], _, ?_, rfl⟩
      rw [if_neg (Bool.eq_false_iff.mp hne)]
      exact enter_eq_ok.mpr (.inl ⟨hcut, rfl, rfl⟩)
    | @entered s₁ hne hcut hrun hlist =>
      refine ⟨s₁.refs.find env.table env.ties .returned fun _ => true, _, ?_, rfl⟩
      rw [if_neg (Bool.eq_false_iff.mp hne)]
      exact enter_eq_ok.mpr (.inr ⟨pos, s₁, rfl, hcut, hrun, hlist, rfl, rfl⟩)

namespace Visited

theorem refs (h : Visited env pos decl cls seed x s s') : s'.refs = s.refs := by
  cases h <;> rfl

theorem depth (h : Visited env pos decl cls seed x s s') : s'.depth = s.depth := by
  cases h <;> rfl

theorem log (h : Visited env pos decl cls seed x s s')
    (hx : ∀ u u', x u = .ok () u' → u.log <+: u'.log) : s.log <+: s'.log := by
  cases h with
  | unneeded => exact List.prefix_rfl
  | leftOut => exact List.prefix_append _ _
  | entered _ _ hrun =>
    have hlog := hx _ _ hrun
    exact hlog

/-- A call of code that does nothing leads nowhere, unless it is left out. -/
theorem eq_of_pure (h : Visited env pos decl cls seed (pure ()) s s') (hleft : ¬LeftOut decl s s') :
    s' = s ∧ (seed.isEmpty = true ∨ isCut env s decl seed = false) := by
  cases h with
  | unneeded hempty => exact ⟨rfl, .inl hempty⟩
  | leftOut => exact absurd leftOut_cut hleft
  | entered hne hcut hrun =>
    cases hrun
    exact ⟨rfl, .inr hcut⟩

end Visited

end Visits

/-! ### The code of a class -/

/-- The references to a new instance of an anonymous class of the type `type`, after the constructor
of the superclass. -/
def newInstance (env : Env) (walk : Walk) (site : Site) (outer : Option Expr)
    (cls type : Option ClassId) (ctor : Option MethodId) (args : List (Option Expr)) :
    Interp (List Ref) := do
  let rs ← newReceivers env walk outer cls
  invoke env walk site ctor args (rs.map (·.withType type))
  dropResult
  return rs.map (·.withType type)

theorem exec_new_eq {span : Span} {outer : Option Expr} {cls : Option ClassId}
    {ctor : Option MethodId} {args : List (Option Expr)} {d : ClassDecl} :
    exec env (n + 1) (.expr (.new span outer cls ctor args (some d))) =
      newInstance env (exec env n) ⟨some span.pos, true⟩ outer cls (d.sym.or cls) ctor args >>=
        classCode env (exec env n) ⟨some span.pos, true⟩ (d.sym.or cls) d := by
  change create env (exec env n) ⟨some span.pos, true⟩ outer cls ctor args (some d) = _
  rw [create_eq]
  simp only [newInstance, bind_assoc, pure_bind]
  refine congrArg (newReceivers env (exec env n) outer cls >>= ·) (funext fun rs => ?_)
  exact (anonymous_eq ..).trans (bind_assoc ..)

section ClassCode

variable {walk : Walk} {site : Site} {cls : Option ClassId} {d : ClassDecl} {md : MethodDecl}
  {body : Block} {rs : List Ref}

/-- The method of a class with one method is called for the new instance and the captured values. -/
theorem runMethodsLater_eq_ok (h : d.OnlyMethod env.table md body)
    (hrun : runMethodsLater env walk site cls d rs s = .ok () s') :
    s.refs.isListable env.table = true ∧ ∃ captured s₁,
      (∀ r ∈ captured, r ∈ s.refs ∧ r.kind = .var) ∧
      discard (enterSeed env site.pos md.id cls ((RefSet.ofList rs).insertAll captured)
        (runBlock walk (some body))) s = .ok () s₁ ∧
      s' = { s₁ with refs := s₁.refs.insertAll (rs.map (·.asExpr s₁.depth)) } := by
  obtain ⟨captured, s₀, hfind, hrest⟩ := bind_eq_ok.mp hrun
  obtain ⟨⟨⟩, s₂, horder, ⟨⟩⟩ := bind_eq_ok.mp hfind
  obtain ⟨hlist, rfl⟩ := requireOrder_eq_ok.mp horder
  obtain ⟨⟨⟩, s₁, hmethods, ⟨⟩⟩ := bind_eq_ok.mp hrest
  refine ⟨hlist, s₀.refs.find env.table env.ties .var fun _ => true, s₁, fun r hr => ?_, ?_, rfl⟩
  · exact ⟨(RefSet.mem_find.mp hr).1, (RefSet.mem_find.mp hr).2.1⟩
  · rw [h.methods] at hmethods
    obtain ⟨⟨⟩, s₃, hmethod, ⟨⟩⟩ := bind_eq_ok.mp hmethods
    rw [runLater_eq env walk site cls _ h.body, h.not_constructor, h.not_static] at hmethod
    exact hmethod

/-- Without methods only the new instance is pushed. -/
theorem runMethodsLater_of_no_methods (h : d.methods = []) (hlist : s.refs.isListable env.table) :
    runMethodsLater env walk site cls d rs s =
      .ok () { s with refs := s.refs.insertAll (rs.map (·.asExpr s.depth)) } := by
  have hfind : find env .var (fun _ => true) s =
      .ok (s.refs.find env.table env.ties .var fun _ => true) s := by
    change (requireOrder env >>= fun _ => _) s = _
    rw [bind_apply, requireOrder_apply, if_pos hlist]
    rfl
  change (find env .var (fun _ => true) >>= fun captured => _) s = _
  rw [bind_apply, hfind, h]
  rfl

/-- What the method of a class records, from the new instance and the captured values, its block
records as an initializer, from the new instance alone. -/
theorem exists_visited_initializers {w : World} {checked : Bool} {guard : Guard} {ties : TieOrder}
    {pos : Pos} {seed : RefSet} {captured : List Ref} (hw : w.Closed)
    (hfree : ∀ c, Code w c → c.decl = d.id → c.DoesNothing w)
    (hbody : ∀ n, (Node.ofBlock body).Below n → w.nodes n)
    (hseed : ∀ r ∈ seed.insertAll captured, w.Tracks r ∧ IsSeed r)
    (hunread : Unread (Node.ofBlock body) captured)
    (hcut : seed.isEmpty = true ∨
      isCut ⟨w.table, w.catalog, checked, guard, ties⟩ s d.id seed = false)
    (hmethod : Visited ⟨w.table, w.catalog, checked, guard, ties⟩ pos md.id cls
      (seed.insertAll captured)
      (runBlock (exec ⟨w.table, w.catalog, checked, guard, ties⟩ n) (some body)) s s')
    (hleft : ¬LeftOut md.id s s') :
    ∃ k t, n ≤ k ∧ Visited ⟨w.table, w.catalog, checked, guard, ties⟩ pos d.id cls seed
        (runInitializers ⟨w.table, w.catalog, checked, guard, ties⟩
          (exec ⟨w.table, w.catalog, checked, guard, ties⟩ k) (d.withInitializer body)) s t ∧
      t.pending = s'.pending := by
  cases hempty : seed.isEmpty with
  | true =>
    -- without a new instance neither records a leak
    refine ⟨n, s, Nat.le_refl n, .unneeded hempty, ?_⟩
    cases hmethod with
    | unneeded => rfl
    | leftOut => rfl
    | entered _ _ hrun =>
      obtain rfl : seed = .empty := RefSet.eq_empty_iff.mpr fun r hr =>
        List.ne_nil_of_mem hr (List.isEmpty_iff.mp hempty)
      have hpending := pending_of_captured hunread hrun
      exact hpending.symm
  | false =>
    have hcut := hcut.resolve_left (Bool.eq_false_iff.mp hempty)
    cases hmethod with
    | unneeded hnone =>
      obtain ⟨r, hr⟩ := RefSet.exists_mem_of_isEmpty hempty
      exact absurd (List.isEmpty_iff.mp hnone)
        (List.ne_nil_of_mem (RefSet.mem_insertAll.mpr (.inr hr)))
    | leftOut => exact absurd leftOut_cut hleft
    | entered _ _ hrun hlist =>
      obtain ⟨t, hrun', hlist', hpending⟩ :=
        exists_runInitializers hw hfree hbody hseed hunread hrun hlist hleft
      exact ⟨_, s.back t, by omega, .entered hempty hcut hrun' hlist', hpending⟩

/-- A class with a method does the same with the block of the method as its initializer, if the
block reads no captured variable and no call of the class or the method is left out. -/
theorem exists_classCode {w : World} {checked : Bool} {guard : Guard} {ties : TieOrder} {pos : Pos}
    {creation : Bool} (hw : w.Closed)
    (hfree : ∀ c, Code w c → c.decl = d.id → c.DoesNothing w)
    (honly : d.OnlyMethod w.table md body) (hbody : ∀ n, (Node.ofBlock body).Below n → w.nodes n)
    (hrs : w.Receivers rs) (hs : w.Tracked s)
    (hrun : classCode ⟨w.table, w.catalog, checked, guard, ties⟩
      (exec ⟨w.table, w.catalog, checked, guard, ties⟩ n) ⟨some pos, creation⟩ cls d rs s =
        .ok () s')
    (hclass : ¬LeftOut d.id s s') (hmethod : ¬LeftOut md.id s s')
    (hunread : ∀ r ∈ s'.refs, ∀ v, r.role = .var v → (Node.ofBlock body).NeverReads v) :
    ∃ k t, n ≤ k ∧ classCode ⟨w.table, w.catalog, checked, guard, ties⟩
        (exec ⟨w.table, w.catalog, checked, guard, ties⟩ k) ⟨some pos, creation⟩ cls
        (d.withInitializer body) rs s = .ok () t ∧
      t.refs = s'.refs ∧ t.pending = s'.pending := by
  obtain ⟨⟨⟩, s₁, hinit, hlater⟩ := bind_eq_ok.mp hrun
  obtain ⟨hlist, captured, s₂, hcaptured, hvisit, rfl⟩ := runMethodsLater_eq_ok honly hlater
  have hvisit := visited_iff.mp hvisit
  have hlog : s₁.log <+: s₂.log := hvisit.log fun u u' hrun => (frame_runBlock hrun).log
  have hnone : runInitializers ⟨w.table, w.catalog, checked, guard, ties⟩
      (exec ⟨w.table, w.catalog, checked, guard, ties⟩ n) d = pure () := by
    rw [runInitializers, honly.initializers]
    rfl
  rw [hnone] at hinit
  obtain ⟨rfl, hcut⟩ := (visited_iff.mp hinit).eq_of_pure fun hleft => hclass (hleft.of_fst hlog)
  have hseed : ∀ r ∈ (RefSet.ofList rs).insertAll captured, w.Tracks r ∧ IsSeed r := by
    intro r hr
    rcases RefSet.mem_insertAll.mp hr with hr | hr
    · exact ⟨hs r (hcaptured r hr).1, .inr (hcaptured r hr).2⟩
    · exact ⟨(hrs r (RefSet.mem_ofList.mp hr)).1, .inl (hrs r (RefSet.mem_ofList.mp hr)).2⟩
  have hunread : Unread (Node.ofBlock body) captured := by
    intro r hr
    obtain ⟨hmem, hkind⟩ := hcaptured r hr
    obtain ⟨v, hv⟩ := Ref.kind_eq_var_iff.mp hkind
    refine ⟨v, hv, hunread r ?_ v hv⟩
    exact RefSet.mem_insertAll.mpr (.inr (hvisit.refs.symm ▸ hmem))
  obtain ⟨k, t, hle, hvisit', hpending⟩ := exists_visited_initializers hw hfree hbody hseed hunread
    hcut hvisit hmethod
  refine ⟨k, { t with refs := t.refs.insertAll (rs.map (·.asExpr t.depth)) }, hle, ?_, ?_,
    hpending⟩
  · refine bind_eq_ok.mpr ⟨(), t, visited_iff.mpr hvisit', ?_⟩
    exact runMethodsLater_of_no_methods (ClassDecl.withInitializer_methods body)
      (hvisit'.refs.symm ▸ hlist)
  · dsimp only
    rw [hvisit'.refs, hvisit.refs, hvisit'.depth, hvisit.depth]

end ClassCode

/-! ### The creation of an instance -/

section Creation

variable {w : World} {checked : Bool} {guard : Guard} {ties : TieOrder} {span : Span}
  {outer : Option Expr} {cls : Option ClassId} {ctor : Option MethodId}
  {args : List (Option Expr)} {d : ClassDecl} {md : MethodDecl} {body : Block}

theorem program_newInstance (hw : w.Closed)
    (hn : w.nodes (.expr (.new span outer cls ctor args (some d)))) :
    Program w (.ofTask (.expr (.new span outer cls ctor args (some d)))) .idle
      (fun m => newInstance (w.env m) m.walk ⟨some span.pos, true⟩ outer cls (d.sym.or cls) ctor
        args) w.Receivers .busy := by
  obtain ⟨houter, hargs⟩ := @covers_new span outer cls ctor args (some d)
  have hcls : w.types cls := hw.named _ hn _ List.mem_cons_self
  refine .bind (program_newReceivers hw hcls houter) fun rs hrs => ?_
  have hrs := hw.receivers_anonymous hn hrs
  have hpermits : (Effects.ofTask (.expr (.new span outer cls ctor args (some d)))).PermitsNew
      w.base (some span.pos) cls ctor args (some d) rs := Effects.permitsNew_ofTask
  exact .bind (program_invoke hw hargs hrs hpermits.call) fun _ _ =>
    .bind program_dropResult fun _ _ => (Program.pure hrs).ofBusy

/-- Only the creation itself runs the initializers of its class, which are none if the only member
is a method. -/
theorem doesNothing_of_onlyMethod (hn : w.nodes (.expr (.new span outer cls ctor args (some d))))
    (hone : w.OneCode) (honly : d.OnlyMethod w.table md body) :
    ∀ c, Code w c → c.decl = d.id → c.DoesNothing w := by
  intro c hc hd m
  have hinit : (Callee.initializers d (d.sym.or cls)).program w m = pure () := by
    change runInitializers (w.env m) m.walk d = pure ()
    rw [runInitializers, World.env_table, honly.initializers]
    rfl
  rw [(hone c _ hc (.initializers hn) hd).2, hinit]

/-- The creation of an instance of an anonymous class with one method comes to the same end with the
block of the method as an initializer of the class instead, and it records the same leak, if the
block reads no captured variable and no call of the class or the method is left out. -/
theorem exists_exec_withInitializer (hw : w.Closed) (hone : w.OneCode)
    (hn : w.nodes (.expr (.new span outer cls ctor args (some d))))
    (honly : d.OnlyMethod w.table md body) (hs : w.Tracked s) {fuel : Nat}
    (hrun : exec ⟨w.table, w.catalog, checked, guard, ties⟩ fuel
      (.expr (.new span outer cls ctor args (some d))) s = .ok () s')
    (hclass : ¬LeftOut d.id s s') (hmethod : ¬LeftOut md.id s s')
    (hunread : ∀ r ∈ s'.refs, ∀ v, r.role = .var v → (Node.ofBlock body).NeverReads v) :
    ∃ k t, exec ⟨w.table, w.catalog, checked, guard, ties⟩ k
        (.expr (.new span outer cls ctor args (some (d.withInitializer body)))) s = .ok () t ∧
      t.refs = s'.refs ∧ t.pending = s'.pending := by
  cases fuel with
  | zero => cases hrun
  | succ n =>
    have hE : (Effects.ofTask (.expr (.new span outer cls ctor args (some d)))).Within w :=
      Effects.within_ofTask hw hn
    have hstart := program_newInstance hw hn
    have hmd : md ∈ d.methods := honly.methods ▸ List.mem_singleton_self md
    have hbody (c : Node) (hc : (Node.ofBlock body).Below c) : w.nodes c :=
      Code.nodes hw (.later hn hmd honly.body honly.not_constructor) hc
    rw [exec_new_eq] at hrun
    obtain ⟨rs, s₁, hnew, hcode⟩ := bind_eq_ok.mp hrun
    obtain ⟨hrs, hs₁, hframe⟩ :=
      hstart.lawful (exec_lawful hw checked guard ties n) hE s rs s₁ hs hnew
    obtain ⟨k, t, hle, hcode', hrefs, hpending⟩ := exists_classCode hw
      (doesNothing_of_onlyMethod hn hone honly) honly hbody hrs hs₁ hcode
      (fun hleft => hclass (hleft.of_snd hframe.log))
      (fun hleft => hmethod (hleft.of_snd hframe.log)) hunread
    refine ⟨k + 1, t, ?_, hrefs, hpending⟩
    rw [exec_new_eq]
    exact bind_eq_ok.mpr ⟨rs, s₁, hstart.run_of_le hw hE hle hs hnew, hcode'⟩

end Creation

end Interp

end EarlyEscape
