import EarlyEscape.Proofs.Interp.Agreement

/-!
# Tied references in changing orders

Nothing says in which order references come that the listing order ties, and it may be another order
every time references are listed.  An interpreter that picks the order anew for each piece of a
program and for each pass of a loop is one of many; what they may do is described here.  A handler
hands each piece inside on at one place, so that no order is left out: only a loop comes to the same
pieces again.

## Main definitions

* `Interp.repeatedBy` : the passes of a loop, each of which may be another one.
* `Interp.Varies` : an interpreter that picks orders of tied references.

## Main results

* `Interp.varies_exec` : it may pick the same order all the time.
* `Interp.Varies.agrees` : what it may do depends on the answers of the catalog alone.
* `Interp.Varies.eq_exec` : where no references are tied, there is nothing to pick.
-/

namespace EarlyEscape.Interp

/-! ### Passes that differ -/

/-- Runs passes one after the other until one of them leaves the set of references as it was. -/
def repeatedBy : List (Interp Unit) → Interp Unit
  | [] => throw .exhausted
  | pass :: passes => do
    let before := (← get).refs
    pass
    let after := (← get).refs
    if after.sameAs before then pure () else repeatedBy passes

theorem repeatedBy_replicate (body : Interp Unit) (n : Nat) :
    repeatedBy (List.replicate n body) = repeated body n := by
  induction n with
  | zero => rfl
  | succ n ih => simp only [List.replicate_succ, repeatedBy, repeated, ih]

/-- Passes that do the same are those of one loop. -/
theorem repeatedBy_eq {body : Interp Unit} {I : State → Prop}
    (hI : ∀ s s', I s → body s = .ok () s' → I s') {passes : List (Interp Unit)}
    (h : ∀ pass ∈ passes, ∀ s, I s → pass s = body s) :
    ∀ s, I s → repeatedBy passes s = repeated body passes.length s := by
  induction passes with
  | nil => exact fun _ _ => rfl
  | cons pass passes ih =>
    intro s hs
    have hrest := ih fun pass hmem => h pass (List.mem_cons_of_mem _ hmem)
    have happrox : Approx (fun _ _ => False) (repeatedBy (pass :: passes) s)
        (repeated body (passes.length + 1) s) := by
      refine bind_approx .refl ?_
      rintro _ _ ⟨⟩
      refine bind_approx (.inl (h pass List.mem_cons_self s hs)) fun _ s₁ hrun =>
        bind_approx .refl ?_
      rintro _ _ ⟨⟩
      refine .inl ?_
      rw [h pass List.mem_cons_self s hs] at hrun
      dsimp only
      split
      · rfl
      · exact hrest s₁ (hI s s₁ hs hrun)
    exact happrox.eq

/-! ### Interpreters that pick orders -/

/-- One pass of a loop, in some order of tied references, by one of the interpreters in `W`. -/
def IsPass (env : Env) (W : Walk → Prop) (stmt : Stmt) (pass : Interp Unit) : Prop :=
  ∃ ties walk, W walk ∧ pass = loopPass { env with ties } walk stmt

/-- What may become of a piece in the state `s`, with some order of tied references for the piece
or, if it is a loop, for each of its passes. -/
def Handles (env : Env) (W : Walk → Prop) (n : Nat) (s : State) :
    Task → EStateM.Result Stop State Unit → Prop
  | .loop stmt, r => ∃ passes, passes.length = n ∧ (∀ pass ∈ passes, IsPass env W stmt pass) ∧
      r = inScope dropResult (repeatedBy passes) s
  | t, r => ∃ ties walk, W walk ∧ r = step { env with ties } walk n t s

/-- The interpreter, with a bound on its steps, picks an order of tied references for each piece and
for each pass of a loop. -/
def Varies (env : Env) : Nat → Walk → Prop
  | 0, walk => walk = fun _ => throw .exhausted
  | n + 1, walk => ∀ t s, Handles env (Varies env n) n s t (walk t s)

/-- An interpreter may pick the same order all the time. -/
theorem varies_exec (env : Env) (ties : TieOrder) (n : Nat) :
    Varies env n (exec { env with ties } n) := by
  induction n with
  | zero => rfl
  | succ n ih =>
    intro t s
    cases t with
    | expr | drop | stmt => exact ⟨ties, _, ih, rfl⟩
    | loop stmt =>
      refine ⟨List.replicate n (loopPass { env with ties } (exec { env with ties } n) stmt),
        List.length_replicate, fun pass hpass => ?_, ?_⟩
      · exact ⟨ties, _, ih, List.eq_of_mem_replicate hpass⟩
      · rw [repeatedBy_replicate]
        rfl

/-- What an interpreter may do depends on the answers of the catalog alone. -/
theorem Varies.agrees {env : Env} {cat : Catalog} (h : env.catalog.Agrees env.table cat)
    (hmethods : ∀ m e, (m, e) ∈ env.catalog.entries → e.decl ∈ e.cls.methods) {n : Nat}
    {walk : Walk} (hwalk : Varies env n walk) : Varies { env with catalog := cat } n walk := by
  have hclosed (ties : TieOrder) : CodeClosed { env with ties } fun _ => True :=
    codeClosed_true hmethods
  induction n generalizing walk with
  | zero => exact hwalk
  | succ n ih =>
    intro t s
    have ht := hwalk t s
    cases t with
    | expr | drop | stmt =>
      obtain ⟨ties, walk', hwalk', heq⟩ := ht
      exact ⟨ties, walk', ih hwalk', heq.trans (congrFun
        ((hclosed ties).step_eq h (fun _ _ => rfl) n trivial) s)⟩
    | loop stmt =>
      obtain ⟨passes, hlength, hpasses, heq⟩ := ht
      refine ⟨passes, hlength, fun pass hpass => ?_, heq⟩
      obtain ⟨ties, walk', hwalk', rfl⟩ := hpasses pass hpass
      exact ⟨ties, walk', ih hwalk',
        ((hclosed ties).parallel h fun _ _ => rfl).loopPass ⟨rfl, trivial⟩⟩

/-! ### Worlds without ties -/

section Untied

variable {w : World} {checked : Bool} {guard : Guard} {ties : TieOrder}

/-- References stay inside the bounds of a closed world. -/
theorem steady_tracked {m : Mode} (hm : m.Lawful w) : Steady w m fun _ s => w.Tracked s where
  of_idle _ _ h := h
  program hx hE s a s' hs _ hrun := (hx.lawful hm hE s a s' hs hrun).2.1
  deeper _ _ h := h
  deferring _ _ _ h := h
  called _ _ _ _ _ _ _ _ _ hseed _ := w.tracked_called fun r hr => (hseed r hr).1

/-- A check says the same in all orders of tied references if there are none. -/
theorem checkLeftovers_eq_of_untied (huntied : w.Untied) (m m' : Mode)
    (hchecked : m.checked = m'.checked) (stmt : Stmt) {s : State} (hs : w.Tracked s) :
    checkLeftovers (w.env m) stmt s = checkLeftovers (w.env m') stmt s := by
  have hsorted := huntied.sorted_eq hs m.ties m'.ties
  rw [checkLeftovers_apply, checkLeftovers_apply]
  simp only [State.leftover?, World.env, hchecked, hsorted]
  rfl

variable {m : Mode} {walk' : Walk} {t : Task} {s : State}

/-- Where no references are tied, a piece is handled in the same way in all orders of tied
references. -/
theorem step_eq_of_untied (hw : w.Closed) (huntied : w.Untied) (hm : m.Lawful w)
    (hwalk : ∀ t s, w.nodes t.node → w.Tracked s → walk' t s = m.walk t s) (ties' : TieOrder)
    (ht : w.nodes t.node) (hs : w.Tracked s) :
    step ⟨w.table, w.catalog, m.checked, m.guard, ties'⟩ walk' m.passes t s =
      step (w.env m) m.walk m.passes t s := by
  let m' : Mode := ⟨m.checked, m.guard, ties', walk', m.passes⟩
  have happrox : Approx (fun _ _ => False) _ _ := step_approx m' hw hm (steady_tracked hm) rfl
    (.inr huntied) (Nat.le_refl m.passes) (fun h => absurd h (Nat.lt_irrefl _))
    (fun stmt s hs => .inl (checkLeftovers_eq_of_untied huntied m m' rfl stmt hs))
    (fun t s ht hs _ => .inl (hwalk t s ht hs).symm) t ht s hs hs
  exact happrox.eq.symm

/-- So is a pass of a loop. -/
theorem loopPass_eq_of_untied (hw : w.Closed) (huntied : w.Untied) (hm : m.Lawful w)
    (hwalk : ∀ t s, w.nodes t.node → w.Tracked s → walk' t s = m.walk t s) (ties' : TieOrder)
    {stmt : Stmt} (hn : w.nodes (.stmt stmt)) (hs : w.Tracked s) :
    loopPass ⟨w.table, w.catalog, m.checked, m.guard, ties'⟩ walk' stmt s =
      loopPass (w.env m) m.walk stmt s := by
  let m' : Mode := ⟨m.checked, m.guard, ties', walk', m.passes⟩
  have happrox : Approx (fun _ _ => False) _ _ := (program_loopPass hw stmt hn).approx m' hm
    (steady_tracked hm) rfl (.inr huntied)
    (fun stmt s hs => .inl (checkLeftovers_eq_of_untied huntied m m' rfl stmt hs))
    (fun t s ht hs _ => .inl (hwalk t s ht hs).symm) (Effects.within_ofTask hw hn) s hs hs
  exact happrox.eq.symm

/-- Where no references are tied, there is nothing to pick. -/
theorem Varies.eq_exec (hw : w.Closed) (huntied : w.Untied) {n : Nat} {walk : Walk}
    (h : Varies ⟨w.table, w.catalog, checked, guard, ties⟩ n walk) (t : Task) (s : State)
    (ht : w.nodes t.node) (hs : w.Tracked s) :
    walk t s = exec ⟨w.table, w.catalog, checked, guard, ties⟩ n t s := by
  induction n generalizing walk t s with
  | zero =>
    rw [h]
    rfl
  | succ n ih =>
    let m := w.mode checked guard ties n
    have hm : m.Lawful w := exec_lawful hw checked guard ties n
    have hpiece := h t s
    cases t with
    | expr | drop | stmt =>
      obtain ⟨ties', walk', hwalk', heq⟩ := hpiece
      exact heq.trans (step_eq_of_untied hw huntied hm (ih hwalk') ties' ht hs)
    | loop stmt =>
      obtain ⟨passes, rfl, hpasses, heq⟩ := hpiece
      have hsame : ∀ pass ∈ passes, ∀ s, w.Tracked s →
          pass s = loopPass (w.env m) m.walk stmt s := by
        intro pass hmem s hs
        obtain ⟨ties', walk', hwalk', rfl⟩ := hpasses pass hmem
        exact loopPass_eq_of_untied hw huntied hm (ih hwalk') ties' ht hs
      have hall := repeatedBy_eq (I := w.Tracked) (fun s s' hs hrun =>
        ((program_loopPass hw stmt ht).lawful hm (Effects.within_ofTask hw ht) s () s' hs
          hrun).2.1) hsame { s with depth := s.depth + 1 } hs
      rw [heq, inScope_apply, hall, ← inScope_apply]
      rfl

end Untied

end EarlyEscape.Interp
