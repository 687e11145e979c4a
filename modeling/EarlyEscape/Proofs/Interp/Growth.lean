import EarlyEscape.Proofs.Interp.Unrolling

/-!
# Larger states lead to larger states

Most steps of the interpreter only look for references and never for their absence.  Such a step
does at least as much from a state that holds more: it gives more values, holds more references
afterwards and records a leak if it does so from the smaller state.  Two runs are compared here, the
first one from a state that is under that of the second one.  They may be runs of different code.

There is one step that looks for an absence: a call is not entered while it is running from the same
references.  It is therefore assumed that the second run enters only declarations that are not
running.  A rank for every declaration says so: code of one rank enters declarations of smaller
ranks only, and it starts when none of these is running.

## Main definitions

* `Interp.State.Under` : the second state holds all that the first one holds.
* `Interp.State.Above` : no declaration of a small rank is running.
* `Interp.Grows` : two steps lead from a state and one above it to such states.

## Main results

* `Interp.Grows.bind`, `Interp.Grows.inScope`, `Interp.Grows.forM` : combined steps.
* `Interp.grows_enter`, `Interp.grows_deferred` : calls of code that grows, now and later.
* `Interp.looped_under` : loops whose passes grow.
-/

namespace EarlyEscape.Interp

/-! ### States and runs -/

/-- The states are at the same place, and the second one holds all that the first one holds: its
references, and a leak if there is one. -/
structure State.Under (s u : State) : Prop where
  refs : ∀ r ∈ s.refs, r ∈ u.refs
  depth : u.depth = s.depth
  methodClass : u.methodClass = s.methodClass
  pending : s.pending ≠ none → u.pending ≠ none

/-- No declaration of a rank below `k` is running. -/
def State.Above (rank : DeclId → Nat) (k : Nat) (s : State) : Prop :=
  ∀ call ∈ s.running, k ≤ rank call.1

/-- All effects. -/
def Effects.all : Effects :=
  ⟨fun _ => True, fun _ => True, fun _ => True, fun _ => True, fun _ => True, fun _ => True,
    fun _ => True, fun _ _ => True, True⟩

/-- From the phase `p` of the second state and with the ranks below `k` not running, the two steps
lead from a state and one above it to such states.  The second one leads to the phase `q`, and the
values are related by `R`. -/
def Grows (rank : DeclId → Nat) (k : Nat) (p : Phase) {α β : Type} (x : Interp α) (y : Interp β)
    (R : α → β → Prop) (q : Phase) : Prop :=
  ∀ s u, s.Under u → u.In p → u.Above rank k → ∀ a b s' u', x s = .ok a s' → y u = .ok b u' →
    R a b ∧ s'.Under u' ∧ u'.In q ∧ Frame .all u u'

namespace State.Under

variable {s u v : State}

theorem refl (s : State) : s.Under s := ⟨fun _ => id, rfl, rfl, id⟩

theorem trans (h : s.Under u) (h' : u.Under v) : s.Under v where
  refs r hr := h'.refs r (h.refs r hr)
  depth := h'.depth.trans h.depth
  methodClass := h'.methodClass.trans h.methodClass
  pending hp := h'.pending (h.pending hp)

/-- A change of the references alone. -/
theorem withRefs (h : s.Under u) {refs refs' : RefSet} (hrefs : ∀ r ∈ refs, r ∈ refs') :
    State.Under { s with refs } { u with refs := refs' } :=
  { h with refs := hrefs }

/-- A change of the scope depth alone. -/
theorem withDepth (h : s.Under u) {d d' : Int} (hd : d' = d) :
    State.Under { s with depth := d } { u with depth := d' } :=
  { h with depth := hd }

theorem deeper (h : s.Under u) :
    State.Under { s with depth := s.depth + 1 } { u with depth := u.depth + 1 } :=
  h.withDepth (congrArg (· + 1) h.depth)

theorem called (h : s.Under u) {seed seed' : RefSet} (hseed : ∀ r ∈ seed, r ∈ seed')
    (pos pos' : Pos) (decl : DeclId) (cls : Option ClassId) :
    (s.called pos decl cls seed).Under (u.called pos' decl cls seed') where
  refs r hr := RefSet.mem_canonical.mpr (hseed r (RefSet.mem_canonical.mp hr))
  depth := rfl
  methodClass := rfl
  pending := h.pending

end State.Under

theorem State.Above.of_running {rank : DeclId → Nat} {k : Nat} {u u' : State}
    (h : u.Above rank k) (hrunning : u'.running = u.running) : u'.Above rank k := by
  unfold State.Above
  rw [hrunning]
  exact h

/-- Code that takes nothing leads from an idle state to one that holds all that it held. -/
theorem Frame.under {E : Effects} {u u' : State} (h : Frame E u u') (hin : u.In .idle)
    (htakes : ∀ kind, ¬E.takes kind) : u.Under u' where
  refs r hr := by
    cases hrole : r.role with
    | expr d => exact (h.exprs r d hrole (hin r hr d hrole)).mpr hr
    | _ => exact h.kept r hr (by simp [Ref.kind, hrole, Ref.Role.kind]) (htakes _)
  depth := h.depth
  methodClass := h.methodClass
  pending hp := (h.pending hp).symm ▸ hp

theorem Frame.toAll {E : Effects} {u u' : State} (h : Frame E u u') : Frame .all u u' :=
  h.mono (fun _ _ => trivial) fun _ _ => trivial

/-! ### Combined steps -/

section Combined

variable {rank : DeclId → Nat} {k : Nat} {p q r : Phase} {α β γ δ : Type}

namespace Grows

theorem pure {R : α → β → Prop} {a : α} {b : β} (h : R a b) :
    Grows rank k p (pure a) (pure b) R p := by
  rintro s u hsu hin - _ _ _ _ ⟨⟩ ⟨⟩
  exact ⟨h, hsu, hin, .refl⟩

theorem bind {x : Interp α} {y : Interp β} {f : α → Interp γ} {g : β → Interp δ}
    {R : α → β → Prop} {T : γ → δ → Prop} (hx : Grows rank k p x y R q)
    (hf : ∀ a b, R a b → Grows rank k q (f a) (g b) T r) :
    Grows rank k p (x >>= f) (y >>= g) T r := by
  intro s u hsu hin habove c d s' u' hs hu
  obtain ⟨a, s₁, hxs, hfs⟩ := bind_eq_ok.mp hs
  obtain ⟨b, u₁, hyu, hgu⟩ := bind_eq_ok.mp hu
  obtain ⟨hR, hsu₁, hin₁, hframe⟩ := hx s u hsu hin habove a b s₁ u₁ hxs hyu
  obtain ⟨hT, hsu', hin', hframe'⟩ :=
    hf a b hR s₁ u₁ hsu₁ hin₁ (habove.of_running hframe.running) c d s' u' hfs hgu
  exact ⟨hT, hsu', hin', hframe.trans hframe'⟩

theorem ofBusy {x : Interp α} {y : Interp β} {R : α → β → Prop} (h : Grows rank k p x y R q) :
    Grows rank k p x y R .busy := by
  intro s u hsu hin habove a b s' u' hs hu
  obtain ⟨hr, hsu', hin', hframe⟩ := h s u hsu hin habove a b s' u' hs hu
  exact ⟨hr, hsu', hin'.busy, hframe⟩

theorem ite {c : Prop} [Decidable c] {x x' : Interp α} {y y' : Interp β} {R : α → β → Prop}
    (h : c → Grows rank k p x y R q) (h' : ¬c → Grows rank k p x' y' R q) :
    Grows rank k p (if c then x else x') (if c then y else y') R q := by
  split
  · exact h ‹c›
  · exact h' ‹¬c›

/-- What is done for the elements of a list, one after the other. -/
theorem forM {f g : α → Interp Unit} {l : List α}
    (h : ∀ a ∈ l, Grows rank k p (f a) (g a) (fun _ _ => True) p) :
    Grows rank k p (l.forM f) (l.forM g) (fun _ _ => True) p := by
  induction l with
  | nil => exact .pure trivial
  | cons a l ih =>
    exact .bind (h a List.mem_cons_self) fun _ _ _ => ih fun b hb => h b (List.mem_cons_of_mem a hb)

/-- The value of the second step is what its program says. -/
theorem withValue {env : Env} {E : Effects} {p' q' : Phase} {V : β → Prop} {n : Nat}
    {x : Interp α} {y : Mode → Interp β} {R : α → β → Prop}
    (hy : Program (World.all env.table env.catalog) E p' y V q')
    (h : Grows rank k p x
      (y ((World.all env.table env.catalog).mode env.checked env.guard env.ties n)) R q) :
    Grows rank k p x (y ((World.all env.table env.catalog).mode env.checked env.guard env.ties n))
      (fun a b => R a b ∧ V b) q := by
  intro s u hsu hin habove a b s' u' hs hu
  obtain ⟨hr, hrest⟩ := h s u hsu hin habove a b s' u' hs hu
  exact ⟨⟨hr, (hy.of_run hu).1⟩, hrest⟩

/-- A look at the class of the running code. -/
theorem ask {f : Option ClassId → Interp α} {g : Option ClassId → Interp β} {R : α → β → Prop}
    (h : ∀ c, Grows rank k p (f c) (g c) R q) :
    Grows rank k p (get >>= fun s => f s.methodClass) (get >>= fun s => g s.methodClass) R q := by
  intro s u hsu hin habove a b s' u' hs hu
  refine h s.methodClass s u hsu hin habove a b s' u' hs ?_
  rw [← hsu.methodClass]
  exact hu

/-- A step that fails gives no run to compare. -/
theorem of_throw {e : Stop} {y : Interp β} {R : α → β → Prop} :
    Grows rank k p (throw e : Interp α) y R q :=
  fun _ _ _ _ _ _ _ _ _ hs => nomatch hs

theorem discard {x : Interp α} {y : Interp β} {R : α → β → Prop} (h : Grows rank k p x y R q) :
    Grows rank k p (Functor.discard x) (Functor.discard y) (fun _ _ => True) q := by
  intro s u hsu hin habove _ _ s' u' hs hu
  obtain ⟨a, s₁, hx, ⟨⟩⟩ := bind_eq_ok.mp hs
  obtain ⟨b, u₁, hy, ⟨⟩⟩ := bind_eq_ok.mp hu
  exact ⟨trivial, (h s u hsu hin habove a b _ _ hx hy).2⟩

/-- A scope whose result is dropped. -/
theorem inScope {x y : Interp Unit} (h : Grows rank k .idle x y (fun _ _ => True) q) :
    Grows rank k p (inScope dropResult x) (inScope dropResult y) (fun _ _ => True) p := by
  intro s u hsu hin habove _ _ s' u' hs hu
  obtain ⟨s₁, _, hxs, ⟨⟩, rfl⟩ := inScope_eq_ok.mp hs
  obtain ⟨u₁, _, hyu, ⟨⟩, rfl⟩ := inScope_eq_ok.mp hu
  obtain ⟨-, hsu₁, hin₁, hframe⟩ := h _ _ hsu.deeper hin.deeper habove () () s₁ u₁ hxs hyu
  have hin' : State.In { u₁ with refs := u₁.refs.discardExprs u₁.depth, depth := u₁.depth - 1 } p :=
    hin.leave hframe hin₁.busy fun r hr => RefSet.mem_discardExprs.mp hr
  refine ⟨trivial, { hsu₁ with refs := fun r hr => ?_, depth := congrArg (· - 1) hsu₁.depth },
    hin', @Frame.leave _ _ u₁ _ hframe ?_ ?_⟩
  · obtain ⟨hr, hne⟩ := RefSet.mem_discardExprs.mp hr
    exact RefSet.mem_discardExprs.mpr ⟨hsu₁.refs r hr, hsu₁.depth ▸ hne⟩
  · intro r hkind
    exact RefSet.mem_discardExprs.trans
      ⟨And.left, fun hr => ⟨hr, fun h => hkind (Ref.kind_of_role_expr h)⟩⟩
  · intro r d hd hlt
    have hdepth : u₁.depth = u.depth + 1 := hframe.depth
    refine RefSet.mem_discardExprs.trans ⟨And.left, fun hr => ⟨hr, fun h => ?_⟩⟩
    have := Ref.Role.expr.inj (hd.symm.trans h)
    omega

end Grows

end Combined

/-! ### Basic steps -/

section Basic

variable {env : Env} {rank : DeclId → Nat} {k : Nat} {p q : Phase} {α β : Type}

/-- A step on references that gives and leaves more from more references. -/
theorem grows_onRefs (env : Env) (ordered : Bool) {f : Int → RefSet → α × RefSet}
    {g : TieOrder → Int → RefSet → α × RefSet} {R : α → α → Prop}
    (h : ∀ d refs refs', (∀ r ∈ refs, r ∈ refs') →
      R (f d refs).1 (g env.ties d refs').1 ∧ ∀ r ∈ (f d refs).2, r ∈ (g env.ties d refs').2)
    (hp : Program (World.all env.table env.catalog) .all p
      (fun m => onRefs ((World.all env.table env.catalog).env m) ordered (g m.ties))
      (fun _ => True) q) :
    Grows rank k p (onRefs env ordered f) (onRefs env ordered (g env.ties)) R q := by
  intro s u hsu hin _ a b s' u' hs hu
  obtain ⟨hin', hframe⟩ := hp.steady (n := 0) hin hu
  obtain ⟨-, rfl, rfl⟩ := onRefs_eq_ok.mp hs
  obtain ⟨-, rfl, rfl⟩ := onRefs_eq_ok.mp hu
  obtain ⟨hR, hrefs⟩ := h s.depth s.refs u.refs hsu.refs
  refine ⟨by rwa [hsu.depth], hsu.withRefs ?_, hin', hframe⟩
  rwa [hsu.depth]

/-- A step that changes references in this way and gives no value. -/
theorem grows_modify {f g : Int → RefSet → RefSet}
    (h : ∀ d refs refs', (∀ r ∈ refs, r ∈ refs') → ∀ r ∈ f d refs, r ∈ g d refs')
    (hp : Program (World.all {} {}) .all p
      (fun _ => modify fun s => { s with refs := g s.depth s.refs }) (fun _ => True) q) :
    Grows rank k p (modify fun s => { s with refs := f s.depth s.refs })
      (modify fun s => { s with refs := g s.depth s.refs }) (fun _ _ => True) q :=
  grows_onRefs { table := {}, catalog := {} } false (R := fun _ _ => True)
    (f := fun d refs => ((), f d refs)) (g := fun _ d refs => ((), g d refs))
    (fun d refs refs' hrefs => ⟨trivial, h d refs refs' hrefs⟩) hp

theorem grows_push {rs rs' : List Ref} (h : rs ⊆ rs') :
    Grows rank k p (push rs) (push rs') (fun _ _ => True) .busy := by
  refine grows_modify (f := fun d refs => refs.insertAll (rs.map (·.asExpr d)))
    (g := fun d refs => refs.insertAll (rs'.map (·.asExpr d))) (fun d refs refs' hrefs r hr => ?_)
    (program_push fun r _ => ⟨trivial, trivial, fun _ _ => trivial⟩)
  exact RefSet.mem_insertAll.mpr ((RefSet.mem_insertAll.mp hr).imp
    (fun hr => List.map_subset _ h hr) (hrefs r))

theorem grows_takeResult :
    Grows rank k p (takeResult env) (takeResult env) (fun rs rs' => rs ⊆ rs') .idle := by
  refine grows_onRefs env true
    (f := fun d refs =>
      ((refs.sorted env.table env.ties).filter (RefSet.isExprAt d), refs.discardExprs d))
    (g := fun ties d refs =>
      ((refs.sorted env.table ties).filter (RefSet.isExprAt d), refs.discardExprs d))
    (fun d refs refs' hrefs => ⟨fun r hr => ?_, fun r hr => ?_⟩)
    (program_takeResult.mono fun _ _ => trivial)
  · obtain ⟨hr, hexpr⟩ := List.mem_filter.mp hr
    exact List.mem_filter.mpr ⟨RefSet.mem_sorted.mpr (hrefs r (RefSet.mem_sorted.mp hr)), hexpr⟩
  · obtain ⟨hr, hne⟩ := RefSet.mem_discardExprs.mp hr
    exact RefSet.mem_discardExprs.mpr ⟨hrefs r hr, hne⟩

theorem grows_dropResult : Grows rank k p dropResult dropResult (fun _ _ => True) .idle := by
  refine grows_modify (f := fun d refs => refs.discardExprs d)
    (g := fun d refs => refs.discardExprs d) (fun d refs refs' hrefs r hr => ?_) program_dropResult
  obtain ⟨hr, hne⟩ := RefSet.mem_discardExprs.mp hr
  exact RefSet.mem_discardExprs.mpr ⟨hrefs r hr, hne⟩

theorem grows_relabel {f : Ref → Ref}
    (hp : Program (World.all env.table env.catalog) .all p
      (fun m => relabelResult ((World.all env.table env.catalog).env m) f) (fun _ => True) q) :
    Grows rank k p (relabelResult env f) (relabelResult env f) (fun _ _ => True) q := by
  refine grows_onRefs env true (R := fun _ _ => True)
    (f := fun d refs => ((), refs.replaceExprs d fun r => some (f r)))
    (g := fun _ d refs => ((), refs.replaceExprs d fun r => some (f r)))
    (fun d refs refs' hrefs => ⟨trivial, fun r hr => ?_⟩) hp
  refine RefSet.mem_replaceExprs.mpr ((RefSet.mem_replaceExprs.mp hr).imp ?_ fun hr =>
    ⟨hrefs r hr.1, hr.2⟩)
  rintro ⟨x, hx, hrole, rfl⟩
  exact ⟨x, hrefs x hx, hrole, rfl⟩

theorem grows_retype (c : Option ClassId) :
    Grows rank k p (relabelResult env (·.withType c)) (relabelResult env (·.withType c))
      (fun _ _ => True) p :=
  grows_relabel (program_retype trivial)

theorem grows_store {role : Ref.Role} (hrole : role.kind ≠ .expr) :
    Grows rank k p (relabelResult env fun r => { r with role })
      (relabelResult env fun r => { r with role }) (fun _ _ => True) .idle :=
  grows_relabel (program_store trivial hrole fun _ _ => trivial)

theorem grows_find {kind : Ref.Kind} {P : Ref → Bool} (hkind : kind = .this ∨ kind = .var) :
    Grows rank k p (find env kind P) (find env kind P) (fun rs rs' => rs ⊆ rs') p := by
  refine grows_onRefs env true (f := fun _ refs => (refs.find env.table env.ties kind P, refs))
    (g := fun ties _ refs => (refs.find env.table ties kind P, refs))
    (fun d refs refs' hrefs => ⟨fun r hr => ?_, hrefs⟩)
    ((program_find (hkind.imp id fun h => ⟨h, fun _ _ _ _ => trivial⟩)).mono fun _ _ => trivial)
  obtain ⟨hr, hfound⟩ := RefSet.mem_find.mp hr
  exact RefSet.mem_find.mpr ⟨hrefs r hr, hfound⟩

theorem grows_takeAll {kind : Ref.Kind} (hkind : kind ≠ .expr) :
    Grows rank k p (takeAll env kind) (takeAll env kind) (fun rs rs' => rs ⊆ rs') p := by
  refine grows_onRefs env true
    (f := fun _ refs => refs.extract env.table env.ties kind fun _ => true)
    (g := fun ties _ refs => refs.extract env.table ties kind fun _ => true)
    (fun d refs refs' hrefs => ⟨fun r hr => ?_, fun r hr => ?_⟩)
    ((program_takeAll trivial hkind).mono fun _ _ => trivial)
  · obtain ⟨hr, hfound⟩ := RefSet.mem_find.mp hr
    exact RefSet.mem_find.mpr ⟨hrefs r hr, hfound⟩
  · obtain ⟨hr, hne⟩ := RefSet.mem_extract.mp hr
    exact RefSet.mem_extract.mpr ⟨hrefs r hr, hne⟩

theorem grows_add {rs rs' : List Ref} (h : rs ⊆ rs') (hkind : ∀ r ∈ rs', r.kind ≠ .expr) :
    Grows rank k p (add rs) (add rs') (fun _ _ => True) p := by
  refine grows_modify (f := fun _ refs => refs.insertAll rs) (g := fun _ refs => refs.insertAll rs')
    (fun d refs refs' hrefs r hr => ?_)
    (program_add fun r hr => ⟨⟨trivial, trivial, fun _ _ => trivial⟩, trivial, hkind r hr⟩)
  exact RefSet.mem_insertAll.mpr ((RefSet.mem_insertAll.mp hr).imp (fun hr => h hr) (hrefs r))

/-- A leak that depends on references. -/
theorem grows_leakIf {c c' : Bool} (h : c = true → c' = true) (pos pos' : Option Pos) :
    Grows rank k p (if c then leakAt pos else pure ()) (if c' then leakAt pos' else pure ())
      (fun _ _ => True) p := by
  intro s u hsu hin _ _ _ s' u' hs hu
  cases c' with
  | false =>
    cases c with
    | false =>
      cases hs
      cases hu
      exact ⟨trivial, hsu, hin, .refl⟩
    | true => cases h rfl
  | true =>
    -- whatever the first run does, a leak is recorded in the second one
    have hs' : s' = { s with pending := s'.pending } := by
      cases c with
      | false =>
        cases hs
        rfl
      | true => rcases leakAt_eq_ok.mp hs with ⟨-, rfl⟩ | ⟨-, -, -, rfl⟩ <;> rfl
    rw [hs']
    rcases leakAt_eq_ok.mp hu with ⟨hleak, rfl⟩ | ⟨hquiet, _, -, rfl⟩
    · exact ⟨trivial, { hsu with pending := fun _ => hleak }, hin, .refl⟩
    · exact ⟨trivial, { hsu with pending := fun _ => nofun }, hin,
        { (Frame.refl : Frame .all u u) with pending := fun hp => absurd hquiet hp }⟩

theorem grows_leakThen {c c' : Bool} (h : c = true → c' = true) (pos pos' : Option Pos)
    {x : Interp α} {y : Interp β} {R : α → β → Prop} (hxy : Grows rank k p x y R q) :
    Grows rank k p (if c then leakAt pos >>= fun _ => x else x)
      (if c' then leakAt pos' >>= fun _ => y else y) R q := by
  have := (grows_leakIf h pos pos').bind fun _ _ _ => hxy
  cases c <;> cases c' <;> simpa using this

/-- A step that records a leak at a position if there is a current result, and drops it. -/
theorem grows_dropOrLeak (pos : Option Pos) :
    Grows rank k p
      (do
        let before := (← get).refs
        dropResult
        if (← get).refs.size != before.size then leakAt pos)
      (do
        let before := (← get).refs
        dropResult
        if (← get).refs.size != before.size then leakAt pos) (fun _ _ => True) .idle := by
  refine Grows.bind (R := fun c c' => c = true → c' = true) (grows_onRefs
    { table := {}, catalog := {} } false
    (f := fun d refs => ((refs.discardExprs d).size != refs.size, refs.discardExprs d))
    (g := fun _ d refs => ((refs.discardExprs d).size != refs.size, refs.discardExprs d))
    (fun d refs refs' hrefs => ⟨fun hchanged => ?_, fun r hr => ?_⟩)
    (program_dropTold.mono fun _ _ => trivial)) fun c c' h => grows_leakIf h pos pos
  · rw [bne_iff_ne, ne_eq, RefSet.size_discardExprs_eq_iff] at hchanged ⊢
    exact fun hall => hchanged fun r hr => hall r (hrefs r hr)
  · obtain ⟨hr, hne⟩ := RefSet.mem_discardExprs.mp hr
    exact RefSet.mem_discardExprs.mpr ⟨hrefs r hr, hne⟩

/-- The check at the end of a statement changes nothing. -/
theorem grows_check (stmt : Stmt) :
    Grows rank k p (checkLeftovers env stmt) (checkLeftovers env stmt) (fun _ _ => True) p := by
  intro s u hsu hin _ _ _ s' u' hs hu
  obtain ⟨rfl, -⟩ := checkLeftovers_eq_ok.mp hs
  obtain ⟨rfl, -⟩ := checkLeftovers_eq_ok.mp hu
  exact ⟨trivial, hsu, hin, .refl⟩

/-! ### Calls -/

/-- A call that is entered keeps the references as they were, also if the first run does nothing. -/
theorem grows_enter_of_pure {site : Option Pos} {decl : DeclId} {cls : Option ClassId}
    {seed : RefSet} {y : Interp Unit}
    (hframe : ∀ u u', y u = .ok () u' → Frame .all u u') :
    Grows rank k p (pure []) (enter env site decl cls seed y) (fun rs rs' => rs ⊆ rs') p := by
  rintro s u hsu hin - _ rs' _ u' ⟨⟩ hu
  rcases enter_eq_ok.mp hu with ⟨-, rfl, rfl⟩ | ⟨pos, u₁, -, -, hbody, -, rfl, rfl⟩
  · exact ⟨List.nil_subset _, { hsu with }, hin, .cut⟩
  · have h := hframe _ _ hbody
    refine ⟨List.nil_subset _, { hsu with pending := fun hp => ?_ }, hin, .back h⟩
    exact (h.pending (hsu.pending hp)).symm ▸ hsu.pending hp

/-- Calls of code that grows.  The second run enters the code, as it is not running. -/
theorem grows_enter (hguard : env.guard = .running) {site site' : Option Pos} {decl : DeclId}
    {cls : Option ClassId} {seed seed' : RefSet} (hseed : ∀ r ∈ seed, r ∈ seed')
    (hkind : ∀ r ∈ seed', IsSeed r) (hrank : rank decl < k) {x y : Interp Unit}
    (hframe : ∀ u u', y u = .ok () u' → Frame .all u u')
    (hbody : Grows rank (rank decl) .idle x y (fun _ _ => True) q) :
    Grows rank k p (enter env site decl cls seed x) (enter env site' decl cls seed' y)
      (fun rs rs' => rs ⊆ rs') p := by
  intro s u hsu hin habove rs rs' s' u' hs hu
  rcases enter_eq_ok.mp hs with ⟨-, rfl, rfl⟩ | ⟨pos, s₁, -, -, hx, -, rfl, rfl⟩
  · exact grows_enter_of_pure hframe (s.cut env decl seed) u { hsu with } hin habove [] rs' _ u'
      rfl hu
  · rcases enter_eq_ok.mp hu with ⟨hcut, -⟩ | ⟨pos', u₁, -, -, hy, -, rfl, rfl⟩
    · rw [isCut, hguard] at hcut
      obtain ⟨call, hcall, hsame⟩ := List.any_eq_true.mp hcut
      have hdecl : call.1 = decl := by simpa using (Bool.and_eq_true_iff.mp hsame).1
      exact absurd (hdecl ▸ habove call hcall) (Nat.not_le.mpr hrank)
    · have habove' : (u.called pos' decl cls seed').Above rank (rank decl) := by
        intro call hcall
        rcases List.mem_cons.mp hcall with rfl | hcall
        · exact Nat.le_refl _
        · exact Nat.le_of_lt (Nat.lt_of_lt_of_le hrank (habove call hcall))
      obtain ⟨-, hsu₁, -, hframe'⟩ := hbody _ _ (hsu.called hseed pos pos' decl cls)
        (State.called_in_idle hkind) habove' () () s₁ u₁ hx hy
      refine ⟨fun r hr => ?_, { hsu with pending := hsu₁.pending }, hin, .back hframe'⟩
      obtain ⟨hr, hfound⟩ := RefSet.mem_find.mp hr
      exact RefSet.mem_find.mpr ⟨hsu₁.refs r hr, hfound⟩

theorem grows_enterSeed (hguard : env.guard = .running) {site site' : Option Pos} {decl : DeclId}
    {cls : Option ClassId} {seed seed' : RefSet} (hseed : ∀ r ∈ seed, r ∈ seed')
    (hkind : ∀ r ∈ seed', IsSeed r) (hrank : rank decl < k) {x y : Interp Unit}
    (hframe : ∀ u u', y u = .ok () u' → Frame .all u u')
    (hbody : Grows rank (rank decl) .idle x y (fun _ _ => True) q) :
    Grows rank k p (enterSeed env site decl cls seed x) (enterSeed env site' decl cls seed' y)
      (fun rs rs' => rs ⊆ rs') p := by
  cases hempty : seed.isEmpty with
  | true =>
    rw [enterSeed, enterSeed, if_pos hempty]
    split
    · exact .pure (List.Subset.refl [])
    · exact grows_enter_of_pure hframe
  | false =>
    obtain ⟨r, hr⟩ := RefSet.exists_mem_of_isEmpty hempty
    have hsome : ¬seed'.isEmpty = true := fun hnone =>
      List.ne_nil_of_mem (hseed r hr) (List.isEmpty_iff.mp hnone)
    rw [enterSeed, enterSeed, if_neg (Bool.eq_false_iff.mp hempty), if_neg hsome]
    exact grows_enter hguard hseed hkind hrank hframe hbody

/-! ### Code that runs at a later time -/

/-- What code leaves behind when it runs at a later time does not come back among what was there in
the larger state, if it returns nothing. -/
theorem grows_deferred {type : Option ClassId} {x y : Interp Unit} {E : Effects}
    (hreturns : ∀ s s', x s = .ok () s' → Frame E s s') (hgives : ¬E.gives .returned)
    (hframe : ∀ u u', deferred env type y u = .ok () u' → u.In .idle →
      u'.In .busy ∧ Frame .all u u')
    (h : Grows rank k .idle x y (fun _ _ => True) q) :
    Grows rank k .idle (deferred env type x) (deferred env type y) (fun _ _ => True) .busy := by
  rintro s u hsu hin habove ⟨⟩ ⟨⟩ s' u' hs hu
  obtain ⟨hin', hframe⟩ := hframe u u' hu hin
  obtain ⟨s₁, hx, -, rfl⟩ := deferred_eq_ok.mp hs
  obtain ⟨u₁, hy, -, rfl⟩ := deferred_eq_ok.mp hu
  have hleaves := hreturns s.deferring s₁ hx
  obtain ⟨-, hsu₁, -, -⟩ := h s.deferring u.deferring { hsu with } hin habove () () s₁ u₁ hx hy
  refine ⟨trivial, { hsu₁ with refs := fun r hr => ?_ }, hin', hframe⟩
  change r ∈ s₁.captured s.refs type at hr
  change r ∈ u₁.captured u.refs type
  unfold State.captured at hr ⊢
  split at hr
  · next hcaptured =>
    rw [if_pos]
    · refine RefSet.mem_insert.mpr ((RefSet.mem_insert.mp hr).imp (fun h => ?_) (hsu.refs r))
      rw [h, hsu₁.depth]
    · obtain ⟨r, hr, hleft⟩ := List.any_eq_true.mp hcaptured
      rw [Bool.and_eq_true, decide_eq_true_eq] at hleft
      refine List.any_eq_true.mpr ⟨r, hsu₁.refs r hr, ?_⟩
      rw [hsu₁.depth, Bool.and_eq_true, decide_eq_true_eq]
      refine ⟨hleft.1, fun hmem => ?_⟩
      cases hrole : r.role with
      | expr d =>
        have hle := hleft.1
        rw [isLeftBehind, hrole, decide_eq_true_eq, hleaves.depth] at hle
        have hlt := hin r hmem d hrole
        have := hsu.depth
        change s.depth ≤ d at hle
        omega
      | returned =>
        have hgiven := hleaves.added r hr (by simp [Ref.kind, hrole, Ref.Role.kind]) hleft.2
        exact hgives (hrole ▸ hgiven)
      | _ => simp [isLeftBehind, hrole] at hleft
  · split
    · exact RefSet.mem_insert.mpr (.inr (hsu.refs r hr))
    · exact hsu.refs r hr

end Basic

/-! ### Loops -/

section Loops

variable {env : Env} {stmt : Stmt} {n m : Nat} {s u s' u' : State}

/-- The passes of a loop lead from an idle state to idle states. -/
theorem iterated_steady {i : Nat} (hin : u.In .idle)
    (hrun : iterated (loopPass env (exec env m) stmt) i u = .ok () u') :
    u'.In .idle ∧ Frame (.ofTask (.loop stmt)) u u' :=
  have hw := World.all_closed env.table env.catalog
  (program_iterated hw trivial i : Program (World.all env.table env.catalog) _ _
    (fun m => iterated (loopPass (World.env _ m) m.walk stmt) i) _ _).steady hin hrun

/-- If every pass of a loop leads from states above those of another loop to such states, then so
does the loop.  It may end after fewer passes than the other one, since its last pass would go on
changing nothing. -/
theorem looped_under {x : Interp Unit} (htakes : ∀ kind, ¬(Node.stmt stmt).Takes kind)
    (hsu : s.Under u) (hin : u.In .idle)
    (hpass : ∀ i t s₁ s₂ t₂, Unrolls env stmt i u t → s₁.Under t → t.In .idle →
      t.running = u.running → x s₁ = .ok () s₂ → loopPass env (exec env m) stmt t = .ok () t₂ →
      s₂.Under t₂)
    (hs : looped n x s = .ok () s') (hu : looped m (loopPass env (exec env m) stmt) u = .ok () u') :
    s'.Under u' := by
  obtain ⟨s₁, _, hxs, ⟨⟩, rfl⟩ := inScope_eq_ok.mp hs
  obtain ⟨u₁, _, hyu, ⟨⟩, rfl⟩ := inScope_eq_ok.mp hu
  have hiterated (i : Nat) : ∀ s₂ t, iterated x i { s with depth := s.depth + 1 } = .ok () s₂ →
      iterated (loopPass env (exec env m) stmt) i { u with depth := u.depth + 1 } = .ok () t →
      s₂.Under t := by
    induction i with
    | zero =>
      rintro _ _ ⟨⟩ ⟨⟩
      exact hsu.deeper
    | succ i ih =>
      intro s₃ t₃ hs hu
      obtain ⟨s₂, hs₂, hs⟩ := iterated_add_eq_ok.mp hs
      obtain ⟨t, ht, hu⟩ := iterated_add_eq_ok.mp hu
      obtain ⟨_, hxs, ⟨⟩⟩ := iterated_succ_eq_ok.mp hs
      obtain ⟨_, hyt, ⟨⟩⟩ := iterated_succ_eq_ok.mp hu
      obtain ⟨hidle, hframe⟩ := iterated_steady hin.deeper ht
      exact hpass i t s₂ _ _ ⟨m, ht⟩ (ih s₂ t hs₂ ht) hidle hframe.running hxs hyt
  obtain ⟨j, s₂, hj, hlast, -⟩ := exists_last_pass hxs
  obtain ⟨t, ht, hkept, hleak⟩ := exists_iterated_le hyu (j + 1)
  have hst : s₁.Under t := hiterated (j + 1) s₁ t
    (iterated_add_eq_ok.mpr ⟨s₂, hj, iterated_succ_eq_ok.mpr ⟨s₁, hlast, rfl⟩⟩) ht
  obtain ⟨hidle, hframe⟩ := iterated_steady hin.deeper ht
  obtain ⟨i, u₂, hi, hlast', -⟩ := exists_last_pass hyu
  obtain ⟨-, hframe'⟩ := iterated_steady hin.deeper
    ((iterated_add_eq_ok (k := 1)).mpr ⟨u₂, hi, iterated_succ_eq_ok.mpr ⟨u₁, hlast', rfl⟩⟩)
  have hdepth : t.depth = u₁.depth := hframe.depth.trans hframe'.depth.symm
  refine ⟨fun r hr => ?_, congrArg (· - 1) (hdepth.symm.trans hst.depth),
    (hframe'.methodClass.trans hframe.methodClass.symm).trans hst.methodClass, fun hp => ?_⟩
  · obtain ⟨hr, hne⟩ := RefSet.mem_discardExprs.mp hr
    have hrt := hst.refs r hr
    refine RefSet.mem_discardExprs.mpr ⟨?_, ?_⟩
    · cases hrole : r.role with
      | expr d =>
        have hlt := hframe.depth ▸ hidle r hrt d hrole
        exact (hframe'.exprs r d hrole hlt).mpr ((hframe.exprs r d hrole hlt).mp hrt)
      | _ => exact hkept r hrt (by simp [Ref.kind, hrole, Ref.Role.kind]) (htakes _)
    · rw [← hdepth, hst.depth]
      exact hne
  · obtain ⟨trail, htrail⟩ := Option.ne_none_iff_exists'.mp (hst.pending hp)
    exact Option.ne_none_iff_exists'.mpr ⟨trail, hleak trail htrail⟩

end Loops

end EarlyEscape.Interp
