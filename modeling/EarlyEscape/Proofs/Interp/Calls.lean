import EarlyEscape.Proofs.Interp.Steps

/-!
# Calls are programs

Calls of known and of unknown methods and the creation of instances are put together from basic
steps, whatever their site does.

## Main definitions

* `Interp.enterSeed` : a call that is entered only with references to pass on.
* `Interp.classCode` : the code of an anonymous class that runs for a new instance.
* `Interp.Unknown`, `Interp.Known` : what a call is resolved to.
* `Interp.newReceivers`, `Interp.createAt` : the two parts of the creation of an instance.

## Main results

* `Interp.program_runMethod` : the code of a method is a program.
* `Interp.program_invoke` : so is a call.
* `Interp.program_create` : so is the creation of an instance.
-/

namespace EarlyEscape

namespace Interp

attribute [local simp] Task.node Node.children Node.exprChildren Node.stmtChildren

/-! ### Calls -/

section Calls

variable {w : World} {E : Effects}

/-- The references can be the receivers of a call. -/
def World.Receivers (w : World) (rs : List Ref) : Prop := ∀ r ∈ rs, w.Tracks r ∧ r.kind = .this

theorem World.receivers_asThis {rs : List Ref} (h : ∀ r ∈ rs, w.Tracks r) :
    w.Receivers (rs.map (·.asThis)) := by
  intro r hr
  obtain ⟨x, hx, rfl⟩ := List.mem_map.mp hr
  exact ⟨(h x hx).asThis, rfl⟩

theorem program_receivers {p : Phase} :
    Program w E p (fun m => receivers (w.env m)) w.Receivers p :=
  program_find (.inl rfl)

/-- The initializers of a class are a program that runs nodes inside them. -/
theorem program_runInitializers {nodes : Node → Prop} {d : ClassDecl}
    (h : ∀ n, Callee.InInitializers w.table d n → nodes n) :
    Program w (.inside nodes) .idle (fun m => runInitializers (w.env m) m.walk d)
      (fun _ => True) .idle := by
  change Program w _ _ (fun m => (d.initializers w.table).forM (runMember m.walk)) _ _
  refine program_forM fun member hm => ?_
  have hmember : nodes (.ofMember member) := h _ ⟨member, hm, .refl⟩
  cases member with
  | field d => exact .run (Effects.covers_inside hmember)
  | initializer b => exact .run (Effects.covers_inside hmember)
  | method d => exact .pure trivial
  | nested d => exact .pure trivial
  | unknown span sort => exact .pure trivial

/-- A block is a program that runs nodes inside it. -/
theorem program_block {nodes : Node → Prop} {body : Block}
    (h : ∀ n, (Node.ofBlock body).Below n → nodes n) {p : Phase} :
    Program w (.inside nodes) p (fun m => runBlock m.walk (some body)) (fun _ => True) p := by
  refine program_runBlock ?_
  rintro b ⟨⟩ s hs x rfl
  exact Effects.covers_inside (h _ (.single (by simpa using hs)))

/-- The code of a method as it runs in a call is a program that runs nodes of the code. -/
theorem program_runMethod {e : Catalog.Entry} {body : Block} :
    Program w (.inside ((Callee.method e body).Holds w.table)) .idle
      (fun m => runMethod (w.env m) m.walk e body) (fun _ => True) .idle := by
  have hend : Program w (.inside ((Callee.method e body).Holds w.table)) .idle (fun m => do
      runBlock m.walk (some body)
      if e.decl.isConstructor w.table then
        let rs ← takeAll (w.env m) .this
        add (rs.map (·.asReturned))) (fun _ => True) .idle := by
    refine .bind (program_block fun n hn => .inl hn) fun _ _ => program_ite (fun _ => ?_) fun _ =>
      .pure trivial
    refine .bind (program_takeAll trivial (by decide)) fun rs hrs => program_add fun r hr => ?_
    obtain ⟨x, hx, rfl⟩ := List.mem_map.mp hr
    exact ⟨(hrs x hx).1.asReturned, trivial, nofun⟩
  refine program_ite (c := e.decl.isConstructor w.table && !isThisCall body.stmts.head?.join)
    (fun hctor => .bind (program_runInitializers fun n hn => ?_) fun _ _ => hend) fun _ => hend
  rw [Bool.and_eq_true, Bool.not_eq_true'] at hctor
  exact .inr ⟨hctor.1, hctor.2, hn⟩

theorem World.Closed.within (hw : w.Closed) {n c : Node} (hn : w.nodes n) (h : n.Within c) :
    w.nodes c := by
  rcases Relation.reflTransGen_iff_eq_or_transGen.mp h with rfl | h
  · exact hn
  · exact hw.below n c hn h

theorem World.Closed.nodes_initializers (hw : w.Closed) {d : ClassDecl}
    (hd : w.nodes (.ofClassDecl d)) {n : Node} (h : Callee.InInitializers w.table d n) :
    w.nodes n := by
  obtain ⟨x, hx, hn⟩ := h
  have hchild : Node.ofMember x ∈ (Node.ofClassDecl d).children :=
    Node.ofMember_mem_children (List.mem_filter.mp hx).1
  exact hw.within (hw.below _ _ hd (.single hchild)) hn

theorem World.Closed.nodes_body (hw : w.Closed) {d : MethodDecl} (hd : w.nodes (.method d))
    {body : Block} (hb : d.body = some body) {n : Node} (h : (Node.ofBlock body).Below n) :
    w.nodes n :=
  hw.below _ _ hd (.head (by simp [hb]) h)

theorem World.Closed.nodes_anonymousClass (hw : w.Closed) {span : Span} {outer : Option Expr}
    {cls : Option ClassId} {ctor : Option MethodId} {args : List (Option Expr)} {d : ClassDecl}
    (hn : w.nodes (.expr (.new span outer cls ctor args (some d)))) : w.nodes (.ofClassDecl d) :=
  hw.below _ _ hn (.single Node.body_mem_children)

theorem World.Closed.nodes_anonymousMethod (hw : w.Closed) {span : Span} {outer : Option Expr}
    {cls : Option ClassId} {ctor : Option MethodId} {args : List (Option Expr)} {d : ClassDecl}
    (hn : w.nodes (.expr (.new span outer cls ctor args (some d)))) {md : MethodDecl}
    (hm : md ∈ d.methods) : w.nodes (.method md) :=
  hw.below _ _ (hw.nodes_anonymousClass hn) (.single (Node.method_mem_children hm))

/-- The code of a call belongs to the world. -/
theorem Code.nodes (hw : w.Closed) {c : Callee} (hc : Code w c) {n : Node}
    (h : c.Holds w.table n) : w.nodes n := by
  cases hc with
  | method he hb =>
    obtain ⟨hcls, hdecl⟩ := hw.entry _ _ he
    rcases h with h | ⟨-, -, h⟩
    · exact hw.nodes_body hdecl hb h
    · exact hw.nodes_initializers hcls h
  | initializers hn => exact hw.nodes_initializers (hw.nodes_anonymousClass hn) h
  | later hn hm hb _ => exact hw.nodes_body (hw.nodes_anonymousMethod hn hm) hb h

/-- The code of a call is a program that runs nodes of the code. -/
theorem Code.program {c : Callee} (hc : Code w c) :
    Program w (.inside (c.Holds w.table)) .idle (c.program w) (fun _ => True) .idle := by
  cases hc with
  | method he hb => exact program_runMethod
  | initializers hn => exact program_runInitializers fun n hn => hn
  | later hn hm hb _ => exact program_block fun n hn => hn

/-- The arguments of a call are a program.  It gives references with any property that the receivers
and all values of variables have. -/
theorem program_bindArgs (hw : w.Closed) {P : Ref → Prop}
    (hP : ∀ (r : Ref) (v : VarId), P (r.asVar v))
    {args : List (Option Expr)} (h : ∀ a ∈ args, E.CoversExpr a) :
    ∀ (params : List VarDecl) (seed : RefSet), (∀ d ∈ params, w.nodes (.ofVarDecl d)) →
      (∀ r ∈ seed, w.Tracks r ∧ P r) →
      Program w E .idle (fun m => bindArgs (w.env m) m.walk args params seed)
        (fun seed => ∀ r ∈ seed, w.Tracks r ∧ P r) .idle := by
  induction args with
  | nil => exact fun params seed _ hseed => .pure hseed
  | cons a args ih =>
    have ih := ih fun b hb => h b (List.mem_cons_of_mem a hb)
    have ha := h a List.mem_cons_self
    intro params seed hparams hseed
    cases params with
    | nil => exact .bind (program_evalDrop ha) fun _ _ => ih [] seed nofun hseed
    | cons p params =>
      have hrest := fun d hd => hparams d (List.mem_cons_of_mem p hd)
      cases hp : p.sym with
      | none =>
        simp only [bindArgs, hp]
        exact .bind (program_evalDrop ha) fun _ _ => ih params seed hrest hseed
      | some v =>
        simp only [bindArgs, hp]
        refine .bind (program_value ha) fun rs hrs => ih params _ hrest fun r hr => ?_
        rcases RefSet.mem_insertAll.mp hr with hr | hr
        · obtain ⟨x, hx, rfl⟩ := List.mem_map.mp hr
          exact ⟨(hrs x hx).asVar (hw.declared (hparams p List.mem_cons_self) hp), hP x v⟩
        · exact hseed r hr

/-! ### What a call leads to -/

/-- The call hands its receivers and arguments to unknown code. -/
def Unknown (env : Env) (m : Option MethodId) (receiver : List Ref) : Prop :=
  m.any (isExempt env) = false ∧ (resolve? env m receiver = .ok none ∨
    ∃ e, resolve? env m receiver = .ok (some e) ∧ (e.invokable = false ∨ e.decl.body = none))

/-- The call is that of a method whose body is known. -/
structure Known (env : Env) (m : Option MethodId) (receiver : List Ref) (e : Catalog.Entry)
    (body : Block) : Prop where
  exempt : m.any (isExempt env) = false
  resolved : resolve? env m receiver = .ok (some e)
  invokable : e.invokable = true
  body : e.decl.body = some body

/-- A call that comes to its end does nothing, is handed to unknown code or runs known code. -/
theorem invoke_eq_ok {env : Env} {walk : Walk} {site : Site} {m : Option MethodId}
    {args : List (Option Expr)} {receiver : List Ref} {s s' : State}
    (h : invoke env walk site m args receiver s = .ok () s') :
    m.any (isExempt env) = true ∧ s' = s ∨
      Unknown env m receiver ∧ invokeUnknown env walk site args receiver s = .ok () s' ∨
      ∃ e body, Known env m receiver e body ∧
        invokeKnown env walk site args receiver e body s = .ok () s' := by
  unfold invoke at h
  split at h
  · next hexempt =>
    cases h
    exact .inl ⟨hexempt, rfl⟩
  next hexempt =>
  have hexempt : m.any (isExempt env) = false := Bool.eq_false_iff.mpr hexempt
  cases hres : resolve? env m receiver with
  | error u =>
    rw [hres] at h
    cases h
  | ok found =>
    rw [hres] at h
    cases found with
    | none => exact .inr (.inl ⟨⟨hexempt, .inl hres⟩, h⟩)
    | some e =>
      cases hi : e.invokable with
      | false =>
        simp only [hi] at h
        exact .inr (.inl ⟨⟨hexempt, .inr ⟨e, hres, .inl hi⟩⟩, h⟩)
      | true =>
        cases hb : e.decl.body with
        | none =>
          simp only [hi, hb] at h
          exact .inr (.inl ⟨⟨hexempt, .inr ⟨e, hres, .inr hb⟩⟩, h⟩)
        | some body =>
          simp only [hi, hb] at h
          exact .inr (.inr ⟨e, body, ⟨hexempt, hres, hi, hb⟩, h⟩)

/-- The effects allow what a call of a method leads to: a leak at its site or at an argument if it
is that of unknown code, and the code of the method if that is known. -/
structure Effects.Permits (E : Effects) (env : Env) (pos : Option Pos) (m : Option MethodId)
    (args : List (Option Expr)) (receiver : List Ref) : Prop where
  site : Unknown env m receiver → receiver.any (triggersLeak env) = true → E.leaks pos
  arg : Unknown env m receiver → ∀ a ∈ args, E.leaks (a.map Expr.pos)
  known : ∀ e body, Known env m receiver e body → E.enters pos (.method e body)

/-- A piece that makes calls of its own may make any. -/
theorem Effects.permits_ofTask {t : Task} (h : t.MakesCalls) {env : Env} {pos : Option Pos}
    {m : Option MethodId} {args : List (Option Expr)} {receiver : List Ref} :
    (Effects.ofTask t).Permits env pos m args receiver :=
  ⟨fun _ _ => .inl h, fun _ _ _ => .inl h, fun _ _ _ => h⟩

/-- Deferred code may make the same calls. -/
theorem Effects.Permits.deferred {env : Env} {pos : Option Pos} {m : Option MethodId}
    {args : List (Option Expr)} {receiver : List Ref} (h : E.Permits env pos m args receiver) :
    E.deferred.Permits env pos m args receiver :=
  ⟨h.site, h.arg, h.known⟩

/-- A call that is entered only with references to pass on. -/
def enterSeed (env : Env) (site : Option Pos) (decl : DeclId) (cls : Option ClassId) (seed : RefSet)
    (body : Interp Unit) : Interp (List Ref) :=
  if seed.isEmpty then pure [] else enter env site decl cls seed body

/-- The call of a known method is entered only with references to pass on. -/
theorem invokeKnown_eq (env : Env) (walk : Walk) (site : Site) (args : List (Option Expr))
    (rs : List Ref) (e : Catalog.Entry) (body : Block) :
    invokeKnown env walk site args rs e body =
      bindArgs env walk args e.decl.params (.ofList rs) >>= fun seed =>
        enterSeed env site.pos e.decl.id e.cls.sym seed (runMethod env walk e body) >>= push := by
  refine congrArg (bindArgs env walk args e.decl.params (.ofList rs) >>= ·) (funext fun seed => ?_)
  unfold enterSeed
  split <;> rfl

theorem program_enterSeed (hw : w.Closed) {site : Option Pos} {s : MethodId} {e : Catalog.Entry}
    {body : Block} {seed : RefSet} (he : (s, e) ∈ w.catalog.entries) (hb : e.decl.body = some body)
    (hsite : E.enters site (.method e body))
    (hseed : ∀ r ∈ seed, w.Tracks r ∧ IsSeed r) {p : Phase} :
    Program w E p (fun m => enterSeed (w.env m) site e.decl.id e.cls.sym seed
      (runMethod (w.env m) m.walk e body)) (fun rs => ∀ r ∈ rs, w.Tracks r) p := by
  have hc : Code w (.method e body) := .method he hb
  exact program_ite (fun _ => .pure nofun) fun hne =>
    .call he hb hsite (fun n => hc.nodes hw) hseed hne hc.program

/-- Code whose value is not used is run if there is something to pass on. -/
theorem program_visitSeed (hw : w.Closed) {site : Option Pos} {c : Callee} {seed : RefSet}
    (hc : Code w c) (hsite : E.enters site c) (hseed : ∀ r ∈ seed, w.Tracks r ∧ IsSeed r)
    {p : Phase} :
    Program w E p (fun m => discard (enterSeed (w.env m) site c.decl c.cls seed (c.program w m)))
      (fun _ => True) p := by
  cases hne : seed.isEmpty with
  | true =>
    refine (Program.pure (a := ()) trivial).of_eq fun m => ?_
    rw [enterSeed, if_pos hne]
    rfl
  | false =>
    refine (Program.visit hc hsite (fun n => hc.nodes hw) hseed hne hc.program).of_eq fun m => ?_
    rw [enterSeed, if_neg (Bool.eq_false_iff.mp hne)]

theorem program_invokeKnown (hw : w.Closed) {site : Site} {args : List (Option Expr)}
    {receiver : List Ref} {s : MethodId} {e : Catalog.Entry} {body : Block}
    (h : ∀ a ∈ args, E.CoversExpr a) (hr : w.Receivers receiver)
    (he : (s, e) ∈ w.catalog.entries) (hb : e.decl.body = some body)
    (hsite : E.enters site.pos (.method e body)) :
    Program w E .idle (fun m => invokeKnown (w.env m) m.walk site args receiver e body)
      (fun _ => True) .busy := by
  have hparams : ∀ d ∈ e.decl.params, w.nodes (.ofVarDecl d) := fun d hd =>
    hw.below _ _ (hw.entry s e he).2 (.single (by simp [hd]))
  have hargs := program_bindArgs hw (P := IsSeed) (fun _ _ => .inr rfl) h e.decl.params
    (.ofList receiver) hparams fun r h => by
      have := hr r (RefSet.mem_ofList.mp h)
      exact ⟨this.1, .inl this.2⟩
  refine (hargs.bind fun seed hseed => ?_).of_eq fun m => invokeKnown_eq ..
  exact (program_enterSeed hw he hb hsite hseed).bind fun rs hrs => program_push hrs

/-- Where something triggers a leak, there is a reference. -/
theorem World.exists_tracks {rs : List Ref} (hrs : ∀ r ∈ rs, w.Tracks r) {p : Ref → Bool}
    (h : rs.any p = true) : ∃ r, w.Tracks r := by
  obtain ⟨r, hr, -⟩ := List.any_eq_true.mp h
  exact ⟨r, hrs r hr⟩

theorem program_passUnknown {a : Option Expr} (h : E.CoversExpr a)
    (hpos : E.leaks (a.map Expr.pos)) :
    Program w E .idle (fun m => passUnknown (w.env m) m.walk a) (fun _ => True) .idle :=
  .bind (program_value h) fun rs hrs =>
    program_ite (c := rs.any (triggersLeak w.base))
      (fun htriggers => .leakAt hpos (World.exists_tracks hrs htriggers)) fun _ => .pure trivial

theorem program_invokeUnknown (hw : w.Closed) {site : Site} {args : List (Option Expr)}
    {receiver : List Ref} (h : ∀ a ∈ args, E.CoversExpr a) (hr : w.Receivers receiver)
    (hsite : receiver.any (triggersLeak w.base) = true → E.leaks site.pos)
    (hargs : ∀ a ∈ args, E.leaks (a.map Expr.pos)) :
    Program w E .idle (fun m => invokeUnknown (w.env m) m.walk site args receiver)
      (fun _ => True) .busy := by
  have hend : Program w E .idle (fun m => do
      args.forM (passUnknown (w.env m) m.walk)
      if site.isCreation then push (receiver.filterMap Ref.toIndirect)) (fun _ => True) .busy := by
    refine .bind (program_forM fun a ha => program_passUnknown (h a ha) (hargs a ha)) fun _ _ =>
      program_ite (fun _ => program_push fun r h => ?_) fun _ => (Program.pure trivial).ofBusy
    obtain ⟨x, hx, hxr⟩ := List.mem_filterMap.mp h
    exact hw.tracks_toIndirect (hr x hx).1 hxr
  exact program_ite (c := receiver.any (triggersLeak w.base)) (fun htriggers =>
    .bind (.leakAt (hsite htriggers) (World.exists_tracks (fun r h => (hr r h).1) htriggers))
      fun _ _ => hend) fun _ => hend

/-- A call is resolved to the entry of the method that it names or, if there is none, to that of a
method that overrides it in the class of the receiver. -/
theorem resolve?_eq_ok {env : Env} {m : Option MethodId} {receiver : List Ref}
    {e : Catalog.Entry} (h : resolve? env m receiver = .ok (some e)) :
    (∃ s, m = some s ∧ (s, e) ∈ env.catalog.entries) ∨
      ∃ named s r, m = some named ∧ receiver = [r] ∧ env.catalog.lookup? m = none ∧
        (s, e) ∈ env.catalog.entries ∧ env.table.overrides s named r.type = true := by
  unfold resolve? at h
  split at h
  · next entry hlookup =>
    cases h
    obtain ⟨s, hs, hfound⟩ := Option.bind_eq_some_iff.mp hlookup
    obtain ⟨l, l', hl, -⟩ := List.lookup_eq_some_iff.mp hfound
    exact .inl ⟨s, hs, hl ▸ List.mem_append_right l List.mem_cons_self⟩
  · next hlookup =>
    split at h
    · next r =>
      cases m with
      | none => simp [Catalog.overrider?] at h
      | some m =>
        cases hc : r.type with
        | none => simp [Catalog.overrider?, hc] at h
        | some c =>
          simp only [Catalog.overrider?, hc] at h
          obtain ⟨s, hs, hover⟩ := Catalog.exists_of_firstOverrider h
          have hover := SymbolTable.overrides_of_overrides? hover
          exact .inr ⟨m, s, r, rfl, rfl, hlookup, (List.mem_filter.mp hs).1, hc ▸ hover⟩
    · cases h

/-- A call is resolved to an entry of the catalog. -/
theorem exists_mem_of_resolve? {env : Env} {m : Option MethodId} {receiver : List Ref}
    {e : Catalog.Entry} (h : resolve? env m receiver = .ok (some e)) :
    ∃ s, (s, e) ∈ env.catalog.entries := by
  obtain ⟨s, -, hs⟩ | ⟨-, s, -, -, -, -, hs, -⟩ := resolve?_eq_ok h
  · exact ⟨s, hs⟩
  · exact ⟨s, hs⟩

/-- A call is a program whose effects are those that the call leads to. -/
theorem program_invoke (hw : w.Closed) {site : Site} {mth : Option MethodId}
    {args : List (Option Expr)} {receiver : List Ref} (h : ∀ a ∈ args, E.CoversExpr a)
    (hr : w.Receivers receiver) (hp : E.Permits w.base site.pos mth args receiver) :
    Program w E .idle (fun m => invoke (w.env m) m.walk site mth args receiver)
      (fun _ => True) .busy := by
  refine program_ite (c := mth.any (isExempt w.base))
    (fun _ => (Program.pure trivial).ofBusy) fun hexempt => ?_
  have hunknown (hu : Unknown w.base mth receiver) : Program w E .idle
      (fun m => invokeUnknown (w.env m) m.walk site args receiver) (fun _ => True) .busy :=
    program_invokeUnknown hw h hr (hp.site hu) (hp.arg hu)
  -- the method that is called does not depend on the mode
  cases hres : resolve? w.base mth receiver with
  | error u =>
    refine .of_eq (.stop (e := .missing) nofun nofun (.inl rfl)) fun m => ?_
    rw [show resolve? (w.env m) mth receiver = .error u from hres]
  | ok found =>
    cases found with
    | none =>
      refine (hunknown ⟨hexempt, .inl hres⟩).of_eq fun m => ?_
      rw [show resolve? (w.env m) mth receiver = .ok none from hres]
    | some entry =>
      by_cases hknown : entry.invokable = true ∧ entry.decl.body ≠ none
      · obtain ⟨body, hb⟩ := Option.ne_none_iff_exists'.mp hknown.2
        obtain ⟨s, hs⟩ := exists_mem_of_resolve? hres
        have hcall : Program w E .idle
            (fun m => invokeKnown (w.env m) m.walk site args receiver entry body)
            (fun _ => True) .busy :=
          program_invokeKnown hw h hr hs hb (hp.known entry body ⟨hexempt, hres, hknown.1, hb⟩)
        refine hcall.of_eq fun m => ?_
        rw [show resolve? (w.env m) mth receiver = .ok (some entry) from hres]
        simp only [hknown.1, hb]
      · refine (hunknown ⟨hexempt, .inr ⟨entry, hres, ?_⟩⟩).of_eq fun m => ?_
        · rw [not_and_or, Decidable.not_not] at hknown
          exact hknown.imp Bool.eq_false_iff.mpr id
        · rw [show resolve? (w.env m) mth receiver = .ok (some entry) from hres]
          dsimp only
          split
          · next body hi hb => exact absurd ⟨hi, by simp [hb]⟩ hknown
          · rfl

/-! ### Creation of instances -/

/-- The outer instance of a new instance of the class `c`, as seen from code of the class `mc`. -/
def outerOf (t : SymbolTable) (c : ClassId) (mc : Option ClassId) (r : Ref) : Option Ref :=
  if t.isSubclass mc (t.enclosing? c) then some r
  else if t.isEnclosedBy mc (t.enclosing? c) then r.fromOuter (t.enclosing? c)
  else none

theorem program_outerReceiver (hw : w.Closed) {p : Phase} {c : ClassId} (hc : w.types (some c)) :
    Program w E p (fun m => outerReceiver (w.env m) c) w.Receivers p := by
  refine .ask (f := fun mc m => receivers (w.env m) >>= fun rs =>
    pure (rs.filterMap fun r => (outerOf w.table c mc r).bind (·.toOuter (some c))))
    fun mc => .bind program_receivers fun rs hrs => .pure fun r hr => ?_
  obtain ⟨x, hx, hr⟩ := List.mem_filterMap.mp hr
  obtain ⟨y, hy, hr⟩ := Option.bind_eq_some_iff.mp hr
  have hy : w.Tracks y ∧ y.kind = .this := by
    unfold outerOf at hy
    split at hy
    · cases hy
      exact hrs x hx
    · split at hy
      · refine ⟨hw.tracks_project (hw.enclosing c) (hrs x hx).1 hy, ?_⟩
        rw [Ref.kind_of_project hy]
        exact (hrs x hx).2
      · cases hy
  refine ⟨hw.tracks_project hc hy.1 hr, ?_⟩
  rw [Ref.kind_of_project hr]
  exact hy.2

theorem program_runLater (hw : w.Closed) {span : Span} {outer : Option Expr} {cls : Option ClassId}
    {ctor : Option MethodId} {args : List (Option Expr)} {d : ClassDecl} {site : Site}
    (hn : w.nodes (.expr (.new span outer cls ctor args (some d)))) {md : MethodDecl}
    (hm : md ∈ d.methods) (hsite : ∀ body, md.body = some body →
      md.isConstructor w.table = false → (Member.method md).isStatic w.table = false →
      E.enters site.pos (.later md body (d.sym.or cls)))
    {seed : RefSet} (hseed : ∀ r ∈ seed, w.Tracks r ∧ IsSeed r) {p : Phase} :
    Program w E p (fun m => runLater (w.env m) m.walk site (d.sym.or cls) seed md)
      (fun _ => True) p := by
  cases hb : md.body with
  | none =>
    simp only [runLater, hb]
    exact .pure trivial
  | some body =>
    simp only [runLater, hb]
    refine program_ite
      (c := md.isConstructor w.table || (Member.method md).isStatic w.table || seed.isEmpty)
      (fun _ => .pure trivial) fun h => ?_
    simp only [Bool.or_eq_false_iff] at h
    have hc : Code w (.later md body (d.sym.or cls)) := .later hn hm hb h.1.1
    exact .visit hc (hsite body hb h.1.1 h.1.2) (fun n => hc.nodes hw) hseed h.2 hc.program

/-- The effects allow to enter the code of an anonymous class. -/
structure Effects.PermitsClass (E : Effects) (t : SymbolTable) (pos : Option Pos) (d : ClassDecl)
    (cls : Option ClassId) : Prop where
  captured : ∀ v, E.reads v
  initializers : E.enters pos (.initializers d cls)
  later : ∀ md ∈ d.methods, ∀ body, md.body = some body → md.isConstructor t = false →
    (Member.method md).isStatic t = false → E.enters pos (.later md body cls)

/-- The new instance of an anonymous class has the type of the class. -/
theorem World.Closed.receivers_anonymous (hw : w.Closed) {span : Span} {outer : Option Expr}
    {cls : Option ClassId} {ctor : Option MethodId} {args : List (Option Expr)} {d : ClassDecl}
    (hn : w.nodes (.expr (.new span outer cls ctor args (some d)))) {receiver : List Ref}
    (hr : w.Receivers receiver) : w.Receivers (receiver.map (·.withType (d.sym.or cls))) := by
  have hcls : w.types (d.sym.or cls) := by
    cases hs : d.sym with
    | none => exact hw.named _ hn _ List.mem_cons_self
    | some c => exact hw.named _ (hw.nodes_anonymousClass hn) _ (by simp [Node.types, hs])
  intro r hmem
  obtain ⟨x, hx, rfl⟩ := List.mem_map.mp hmem
  exact ⟨(hr x hx).1.withType hcls, (hr x hx).2⟩

/-- What follows the initializers in the creation of an instance of an anonymous class. -/
def runMethodsLater (env : Env) (walk : Walk) (site : Site) (cls : Option ClassId) (d : ClassDecl)
    (receiver : List Ref) : Interp Unit := do
  let captured ← find env .var fun _ => true
  d.methods.forM (runLater env walk site cls ((RefSet.ofList receiver).insertAll captured))
  push receiver

/-- The code of an anonymous class that runs for a new instance. -/
def classCode (env : Env) (walk : Walk) (site : Site) (cls : Option ClassId) (d : ClassDecl)
    (receiver : List Ref) : Interp Unit := do
  discard (enterSeed env site.pos d.id cls (.ofList receiver) (runInitializers env walk d))
  runMethodsLater env walk site cls d receiver

/-- The creation of an instance of an anonymous class drops the value of the constructor of the
superclass. -/
theorem anonymous_eq (env : Env) (walk : Walk) (site : Site) (cls : Option ClassId)
    (ctor : Option MethodId) (args : List (Option Expr)) (d : ClassDecl) (receiver : List Ref) :
    anonymous env walk site cls ctor args d receiver =
      (invoke env walk site ctor args (receiver.map (·.withType (d.sym.or cls))) >>=
          fun _ => dropResult) >>=
        fun _ => classCode env walk site (d.sym.or cls) d
          (receiver.map (·.withType (d.sym.or cls))) := by
  rw [bind_assoc]
  refine congrArg (invoke env walk site ctor args (receiver.map (·.withType (d.sym.or cls))) >>= ·)
    (funext fun _ => congrArg (dropResult >>= ·) (funext fun _ => ?_))
  dsimp only [classCode, enterSeed]
  cases (RefSet.ofList (receiver.map (·.withType (d.sym.or cls)))).isEmpty <;> rfl

/-- The code of an anonymous class is a program. -/
theorem program_classCode (hw : w.Closed) {span : Span} {outer : Option Expr}
    {cls : Option ClassId} {ctor : Option MethodId} {args : List (Option Expr)} {d : ClassDecl}
    {site : Site} (hn : w.nodes (.expr (.new span outer cls ctor args (some d))))
    {receiver : List Ref} (hr : w.Receivers receiver)
    (hd : E.PermitsClass w.table site.pos d (d.sym.or cls)) :
    Program w E .idle (fun m => classCode (w.env m) m.walk site (d.sym.or cls) d receiver)
      (fun _ => True) .busy := by
  have hseed : ∀ r ∈ RefSet.ofList receiver, w.Tracks r ∧ IsSeed r := by
    intro r hmem
    have := hr r (RefSet.mem_ofList.mp hmem)
    exact ⟨this.1, .inl this.2⟩
  have hc : Code w (.initializers d (d.sym.or cls)) := .initializers hn
  refine .bind (program_visitSeed hw hc hd.initializers hseed) fun _ _ => ?_
  refine .bind (program_find (.inr ⟨rfl, fun _ v _ _ => hd.captured v⟩)) fun captured hcaptured =>
    .bind (program_forM fun md hmd =>
      program_runLater hw hn hmd (hd.later md hmd) fun r hmem => ?_)
      fun _ _ => program_push fun r hmem => (hr r hmem).1
  rcases RefSet.mem_insertAll.mp hmem with hmem | hmem
  · exact ⟨(hcaptured r hmem).1, .inr (hcaptured r hmem).2⟩
  · exact hseed r hmem

/-- The creation of an instance of an anonymous class is a program. -/
theorem program_anonymous (hw : w.Closed) {span : Span} {outer : Option Expr}
    {cls : Option ClassId} {ctor : Option MethodId} {args : List (Option Expr)} {d : ClassDecl}
    {site : Site} (hn : w.nodes (.expr (.new span outer cls ctor args (some d))))
    (h : ∀ a ∈ args, E.CoversExpr a) {receiver : List Ref} (hr : w.Receivers receiver)
    (hp : E.Permits w.base site.pos ctor args (receiver.map (·.withType (d.sym.or cls))))
    (hd : E.PermitsClass w.table site.pos d (d.sym.or cls)) :
    Program w E .idle (fun m => anonymous (w.env m) m.walk site cls ctor args d receiver)
      (fun _ => True) .busy := by
  have hr := hw.receivers_anonymous hn hr
  have hcall := (program_invoke hw h hr hp).bind fun _ _ => program_dropResult
  exact (hcall.bind fun _ _ => program_classCode hw hn hr hd).of_eq fun m => anonymous_eq ..

/-- The references to a new instance of the class `cls` through its outer instance, which may be
explicit. -/
def newReceivers (env : Env) (walk : Walk) (outer : Option Expr) (cls : Option ClassId) :
    Interp (List Ref) :=
  match outer with
  | some e => do
    let rs ← value env walk (some e)
    pure ((rs.filterMap (·.toOuter cls)).map (·.asThis))
  | none =>
    match cls with
    | some c => if (env.table.cls c).hasOuter then outerReceiver env c else pure []
    | none => pure []

/-- The call that the creation of an instance makes. -/
def createAt (env : Env) (walk : Walk) (site : Site) (cls : Option ClassId)
    (ctor : Option MethodId) (args : List (Option Expr)) (body : Option ClassDecl)
    (receiver : List Ref) : Interp Unit :=
  match body with
  | some d => anonymous env walk site cls ctor args d receiver
  | none => invoke env walk site ctor args receiver

/-- The creation of an instance finds the references to it first. -/
theorem create_eq (env : Env) (walk : Walk) (site : Site) (outer : Option Expr)
    (cls : Option ClassId) (ctor : Option MethodId) (args : List (Option Expr))
    (body : Option ClassDecl) :
    create env walk site outer cls ctor args body =
      newReceivers env walk outer cls >>= createAt env walk site cls ctor args body := by
  cases outer with
  | some e =>
    simp only [create, newReceivers, bind_assoc, pure_bind]
    rfl
  | none =>
    cases cls with
    | none => rfl
    | some c =>
      simp only [create, newReceivers]
      split <;> rfl

theorem program_newReceivers (hw : w.Closed) {outer : Option Expr} {cls : Option ClassId}
    (hcls : w.types cls) (houter : E.CoversExpr outer) :
    Program w E .idle (fun m => newReceivers (w.env m) m.walk outer cls) w.Receivers .idle := by
  have hnone : w.Receivers [] := by simp [World.Receivers]
  cases outer with
  | some e =>
    refine .bind (program_value houter) fun rs hrs => .pure ?_
    exact World.receivers_asThis (hw.tracks_filterMap hcls hrs)
  | none =>
    cases cls with
    | none => exact .pure hnone
    | some c =>
      exact program_ite (c := (w.table.cls c).hasOuter)
        (fun _ => program_outerReceiver hw hcls) fun _ => .pure hnone

/-- The receivers of the constructor that the creation of an instance calls: an instance of an
anonymous class has the type of that class. -/
def constructed (cls : Option ClassId) (body : Option ClassDecl) (receiver : List Ref) : List Ref :=
  match body with
  | some d => receiver.map (·.withType (d.sym.or cls))
  | none => receiver

/-- The effects allow what the creation of an instance with given receivers leads to. -/
structure Effects.PermitsNew (E : Effects) (env : Env) (pos : Option Pos) (cls : Option ClassId)
    (ctor : Option MethodId) (args : List (Option Expr)) (body : Option ClassDecl)
    (receiver : List Ref) : Prop where
  call : E.Permits env pos ctor args (constructed cls body receiver)
  body : ∀ d, body = some d → E.PermitsClass env.table pos d (d.sym.or cls)

theorem Effects.reads_new {span : Span} {outer : Option Expr} {cls : Option ClassId}
    {ctor : Option MethodId} {args : List (Option Expr)} {d : ClassDecl} (v : VarId) :
    (Effects.ofTask (.expr (.new span outer cls ctor args (some d)))).reads v :=
  ⟨_, .refl, trivial⟩

theorem Effects.permitsNew_ofTask {env : Env} {pos : Option Pos} {span : Span}
    {outer : Option Expr} {cls : Option ClassId} {ctor : Option MethodId}
    {args : List (Option Expr)} {body : Option ClassDecl} {receiver : List Ref} :
    (Effects.ofTask (.expr (.new span outer cls ctor args body))).PermitsNew env pos cls ctor args
      body receiver where
  call := Effects.permits_ofTask (t := .expr (.new span outer cls ctor args body)) trivial
  body := by
    rintro d rfl
    exact ⟨Effects.reads_new, trivial, fun _ _ _ _ _ _ => trivial⟩

/-- The call that the creation of an instance makes is a program. -/
theorem program_createAt (hw : w.Closed) {span : Span} {outer : Option Expr} {cls : Option ClassId}
    {ctor : Option MethodId} {args : List (Option Expr)} {body : Option ClassDecl} {site : Site}
    (hn : w.nodes (.expr (.new span outer cls ctor args body))) (h : ∀ a ∈ args, E.CoversExpr a)
    {receiver : List Ref} (hr : w.Receivers receiver)
    (hp : E.PermitsNew w.base site.pos cls ctor args body receiver) :
    Program w E .idle (fun m => createAt (w.env m) m.walk site cls ctor args body receiver)
      (fun _ => True) .busy := by
  cases body with
  | some d => exact program_anonymous hw hn h hr hp.call (hp.body d rfl)
  | none => exact program_invoke hw h hr hp.call

theorem covers_new {span : Span} {outer : Option Expr} {cls : Option ClassId}
    {ctor : Option MethodId} {args : List (Option Expr)} {body : Option ClassDecl} :
    (Effects.ofTask (.expr (.new span outer cls ctor args body))).CoversExpr outer ∧
      ∀ a ∈ args, (Effects.ofTask (.expr (.new span outer cls ctor args body))).CoversExpr a := by
  refine ⟨Effects.coversExpr_child rfl fun x hx => by simp [hx], fun a ha => ?_⟩
  exact Effects.coversExpr_child rfl fun x hx => by simp [hx ▸ ha]

/-- The creation of an instance is a program. -/
theorem program_create (hw : w.Closed) {span : Span} {outer : Option Expr} {cls : Option ClassId}
    {ctor : Option MethodId} {args : List (Option Expr)} {body : Option ClassDecl} {site : Site}
    (hn : w.nodes (.expr (.new span outer cls ctor args body))) :
    Program w (.ofTask (.expr (.new span outer cls ctor args body))) .idle
      (fun m => create (w.env m) m.walk site outer cls ctor args body) (fun _ => True) .busy := by
  obtain ⟨houter, hargs⟩ := @covers_new span outer cls ctor args body
  have hreceivers := program_newReceivers hw (hw.named _ hn _ List.mem_cons_self) houter
  refine (hreceivers.bind fun receiver hr => ?_).of_eq fun m => create_eq ..
  exact program_createAt hw hn hargs hr Effects.permitsNew_ofTask

end Calls

end Interp

end EarlyEscape
