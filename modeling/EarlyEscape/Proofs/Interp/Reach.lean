import EarlyEscape.Proofs.Interp.Approximation
import Mathlib.Tactic.ByContra

/-!
# What an interpretation comes to

An interpretation without end is one that uses up every bound on the steps.  It comes to a piece
inside that has no end either, unless a loop goes on and on.  Which pieces it comes to is seen by
an experiment: a special end is planted at a piece in a state, and if the interpretation ends with
it, whatever the end is, then it has come to that piece in that state.

## Main definitions

* `Interp.Exhausts` : the run uses up its bound.
* `Interp.Diverges` : the interpretation of a piece uses up every bound.
* `Interp.plant`, `Interp.Calls` : what an interpretation comes to.
* `Interp.Mode.Comes` : what a program comes to.

## Main results

* `Interp.Program.exists_stalls` : a program without end comes to a piece without end.
* `Interp.Calls.diverges` : what comes to a piece without end has no end.
* `Interp.Calls.steady` : what holds at the start of all code holds of all that an interpretation
  comes to.
-/

namespace EarlyEscape.Interp

/-! ### Runs that use up their bound -/

/-- The run uses up its bound on the steps. -/
def Exhausts {α : Type} (r : EStateM.Result Stop State α) : Prop := ∃ s, r = .error .exhausted s

/-- The interpretation of a piece of a program uses up every bound on the steps. -/
def Diverges (env : Env) (t : Task) (s : State) : Prop := ∀ n, Exhausts (exec env n t s)

section Exhausts

variable {α β : Type} {r r' : EStateM.Result Stop State α}

theorem exhausts_of_approx (h : Approx OutOfSteps r r') (h' : Exhausts r') : Exhausts r := by
  rcases h with rfl | ⟨e, s, rfl, rfl⟩
  · exact h'
  · exact ⟨s, rfl⟩

theorem eq_of_approx (h : Approx OutOfSteps r r') (hr : ¬Exhausts r) : r = r' := by
  rcases h with h | ⟨e, s, rfl, rfl⟩
  · exact h
  · exact absurd ⟨s, rfl⟩ hr

theorem approx_of_exhausts (h : Exhausts r) : Approx OutOfSteps r r' := by
  obtain ⟨s, rfl⟩ := h
  exact .error rfl

/-- A piece whose handler uses up all large bounds uses up all bounds. -/
theorem diverges_of_step {env : Env} {t : Task} {s : State} (n₀ : Nat)
    (h : ∀ n, n₀ ≤ n → Exhausts (step env (exec env n) n t s)) : Diverges env t s := fun n =>
  exhausts_of_approx (exec_mono env (Nat.le_succ_of_le (Nat.le_max_left n n₀)) t s)
    (h _ (Nat.le_max_right n n₀))

/-- A result that is the end `e` whatever `e` is does not exist. -/
theorem false_of_all_ends (h : ∀ e, e ≠ .exhausted → ∃ s, r = .error e s) : False := by
  obtain ⟨s, hs⟩ := h .missing nofun
  obtain ⟨s', hs'⟩ := h (.internal ⟨0, .unknownStmt ""⟩) nofun
  rw [hs] at hs'
  cases hs'

theorem bind_ok {x : Interp α} {f : α → Interp β} {s s₁ : State} {a : α} (h : x s = .ok a s₁) :
    (x >>= f) s = f a s₁ := by
  rw [bind_apply, h]

theorem bind_error {x : Interp α} {f : α → Interp β} {s s₁ : State} {e : Stop}
    (h : x s = .error e s₁) : (x >>= f) s = .error e s₁ := by
  rw [bind_apply, h]

theorem exhausts_discard {x : Interp α} {s : State} (h : Exhausts (discard x s)) :
    Exhausts (x s) := by
  obtain ⟨s', h⟩ := h
  cases hx : x s with
  | ok a s₁ => cases (bind_ok hx).symm.trans h
  | error e s₁ =>
    cases (bind_error hx).symm.trans h
    exact ⟨_, rfl⟩

theorem exhausts_inScope {leave body : Interp Unit} {s : State}
    (hleave : ∀ s, ¬Exhausts (leave s)) (h : Exhausts (inScope leave body s)) :
    Exhausts (body { s with depth := s.depth + 1 }) := by
  obtain ⟨s', h⟩ := h
  rw [inScope_apply] at h
  cases hb : body { s with depth := s.depth + 1 } with
  | error e s₁ =>
    simp only [hb, EStateM.Result.error.injEq] at h
    exact ⟨s₁, by rw [h.1]⟩
  | ok _ s₁ =>
    cases hl : leave s₁ with
    | error e s₂ =>
      simp only [hb, hl, EStateM.Result.error.injEq] at h
      exact absurd ⟨s₂, by rw [hl, h.1]⟩ (hleave s₁)
    | ok _ s₂ => simp [hb, hl] at h

theorem inScope_error {leave body : Interp Unit} {s s₁ : State} {e : Stop}
    (h : body { s with depth := s.depth + 1 } = .error e s₁) :
    inScope leave body s = .error e s₁ := by
  rw [inScope_apply, h]

theorem not_exhausts_dropResult (s : State) : ¬Exhausts (dropResult s) := nofun

theorem not_exhausts_promoteResult (env : Env) (s : State) : ¬Exhausts (promoteResult env s) := by
  rintro ⟨s', h⟩
  rw [promoteResult_apply] at h
  split at h <;> cases h

theorem exhausts_enter {env : Env} {site : Option Pos} {decl : DeclId} {cls : Option ClassId}
    {seed : RefSet} {body : Interp Unit} {s : State}
    (h : Exhausts (enter env site decl cls seed body s)) :
    ∃ pos, site = some pos ∧ isCut env s decl seed = false ∧
      Exhausts (body (s.called pos decl cls seed)) := by
  obtain ⟨s', h⟩ := h
  rw [enter_apply] at h
  split at h
  · cases h
  · next hcut =>
    cases site with
    | none => cases h
    | some pos =>
      refine ⟨pos, rfl, by simpa using hcut, ?_⟩
      cases hb : body (s.called pos decl cls seed) with
      | error e s₁ =>
        simp only [hb, EStateM.Result.error.injEq] at h
        exact ⟨s₁, by rw [h.1]⟩
      | ok _ s₁ =>
        simp only [hb] at h
        split at h <;> cases h

theorem enter_error {env : Env} {pos : Pos} {decl : DeclId} {cls : Option ClassId}
    {seed : RefSet} {body : Interp Unit} {s s₁ : State} {e : Stop}
    (hcut : isCut env s decl seed = false)
    (h : body (s.called pos decl cls seed) = .error e s₁) :
    enter env (some pos) decl cls seed body s = .error e s₁ := by
  simp [enter_apply, hcut, h]

theorem exhausts_deferred {env : Env} {type : Option ClassId} {code : Interp Unit} {s : State}
    (h : Exhausts (deferred env type code s)) : Exhausts (code s.deferring) := by
  obtain ⟨s', h⟩ := h
  rw [deferred_apply] at h
  cases hc : code s.deferring with
  | error e s₁ =>
    simp only [hc, EStateM.Result.error.injEq] at h
    exact ⟨s₁, by rw [h.1]⟩
  | ok _ s₁ =>
    simp only [hc] at h
    split at h <;> cases h

theorem deferred_error {env : Env} {type : Option ClassId} {code : Interp Unit} {s s₁ : State}
    {e : Stop} (h : code s.deferring = .error e s₁) :
    deferred env type code s = .error e s₁ := by
  rw [deferred_apply, h]

theorem not_exhausts_onRefs {env : Env} {ordered : Bool} {f : Int → RefSet → α × RefSet}
    {s : State} : ¬Exhausts (onRefs env ordered f s) := by
  rintro ⟨s', h⟩
  rw [onRefs_apply] at h
  split at h <;> cases h

theorem not_exhausts_leakAt {pos : Option Pos} {s : State} : ¬Exhausts (leakAt pos s) := by
  rintro ⟨s', h⟩
  rcases leakAt_cases pos s with ⟨-, hrun⟩ | ⟨-, hrun | ⟨p, -, hrun⟩⟩
  all_goals cases hrun.symm.trans h

theorem not_exhausts_check (env : Env) (stmt : Stmt) (s : State) :
    ¬Exhausts (checkLeftovers env stmt s) := by
  rintro ⟨s', h⟩
  rw [checkLeftovers_apply] at h
  repeat' split at h
  all_goals cases h

end Exhausts

/-! ### Planted ends -/

open Classical in
/-- The interpreter with the end `e` planted at the piece `t` in the state `s`. -/
noncomputable def plant (walk : Walk) (e : Stop) (t : Task) (s : State) : Walk := fun t₁ s₁ =>
  if t₁ = t ∧ s₁ = s then .error e s₁ else walk t₁ s₁

/-- The interpretation of the piece `t` from the state `s` comes to the piece `t'` in the state
`s'`: it ends as the interpretation there does, whatever the end is. -/
def Calls (env : Env) (t : Task) (s : State) (t' : Task) (s' : State) : Prop :=
  ∃ n, ∀ e, ∃ s₁, step env (plant (exec env n) e t' s') n t s = .error e s₁

/-- A mode with a planted end. -/
noncomputable def Mode.planted (m : Mode) (e : Stop) (t : Task) (s : State) : Mode :=
  { m with walk := plant m.walk e t s }

/-- In the mode, the code comes to the piece `t` in the state `s'`: it ends with any end that is
planted there. -/
def Mode.Comes (m : Mode) {α : Type} (x : Mode → Interp α) (s : State) (t : Task) (s' : State) :
    Prop :=
  ∀ e, ∃ s₁, x (m.planted e t s') s = .error e s₁

theorem planted_walk_self {m : Mode} {e : Stop} {t : Task} {s : State} :
    (m.planted e t s).walk t s = .error e s :=
  if_pos ⟨rfl, rfl⟩

theorem planted_walk_of_ne {m : Mode} {e : Stop} {t t₁ : Task} {s s₁ : State}
    (h : ¬(t₁ = t ∧ s₁ = s)) : (m.planted e t s).walk t₁ s₁ = m.walk t₁ s₁ :=
  if_neg h

section Planted

variable {w : World} {m : Mode} (e : Stop) (t₀ : Task) (s₀ : State)

theorem planted_lawful (hm : m.Lawful w) : (m.planted e t₀ s₀).Lawful w := by
  intro t s s' ht hs hrun
  by_cases h : t = t₀ ∧ s = s₀
  · obtain ⟨rfl, rfl⟩ := h
    rw [planted_walk_self] at hrun
    cases hrun
  · rw [planted_walk_of_ne h] at hrun
    exact hm t s s' ht hs hrun

/-- A program with a planted end agrees with the program itself, unless it ends with the planted
end. -/
theorem Program.planted_approx {E : Effects} {p q : Phase} {α : Type} {x : Mode → Interp α}
    {V : α → Prop} (h : Program w E p x V q) (hm : m.Lawful w) (hE : E.Within w) (s : State)
    (hs : w.Tracked s) :
    Approx (fun e' _ => e' = e) (x (m.planted e t₀ s₀) s) (x m s) := by
  refine h.approx m (planted_lawful e t₀ s₀ hm) steady_true rfl (.inl rfl)
    (fun _ _ _ => .refl) ?_ hE s hs trivial
  intro t s _ _ _
  by_cases hpoint : t = t₀ ∧ s = s₀
  · obtain ⟨rfl, rfl⟩ := hpoint
    rw [planted_walk_self]
    exact .error rfl
  · rw [planted_walk_of_ne hpoint]
    exact .refl

end Planted

/-! ### What code comes to -/

namespace Mode.Comes

variable {m : Mode} {w : World} {α β : Type} {s s' : State} {t : Task}

theorem of_bind {x : Mode → Interp α} {f : α → Mode → Interp β} (h : m.Comes x s t s') :
    m.Comes (fun m => x m >>= fun a => f a m) s t s' := by
  intro e
  obtain ⟨s₁, h₁⟩ := h e
  exact ⟨s₁, bind_error h₁⟩

theorem of_inScope {leave x : Mode → Interp Unit}
    (h : m.Comes x { s with depth := s.depth + 1 } t s') :
    m.Comes (fun m => inScope (leave m) (x m)) s t s' := by
  intro e
  obtain ⟨s₁, h₁⟩ := h e
  exact ⟨s₁, inScope_error h₁⟩

theorem of_deferred {type : Option ClassId} {x : Mode → Interp Unit}
    (h : m.Comes x s.deferring t s') :
    m.Comes (fun m => deferred (w.env m) type (x m)) s t s' := by
  intro e
  obtain ⟨s₁, h₁⟩ := h e
  exact ⟨s₁, deferred_error h₁⟩

theorem of_enter {pos : Pos} {decl : DeclId} {cls : Option ClassId} {seed : RefSet}
    {x : Mode → Interp Unit} (hcut : isCut (w.env m) s decl seed = false)
    (h : m.Comes x (s.called pos decl cls seed) t s') :
    m.Comes (fun m => enter (w.env m) (some pos) decl cls seed (x m)) s t s' := by
  intro e
  obtain ⟨s₁, h₁⟩ := h e
  exact ⟨s₁, enter_error hcut h₁⟩

end Mode.Comes

/-- One program after another comes to all that the second one comes to from where the first one
ends. -/
theorem Program.comes_bind {w : World} {m : Mode} {E : Effects} {p q : Phase} {α β : Type}
    {x : Mode → Interp α} {V : α → Prop} (hx : Program w E p x V q) (hm : m.Lawful w)
    (hE : E.Within w) {s s₁ s' : State} (hs : w.Tracked s) {a : α} (hrun : x m s = .ok a s₁)
    {f : α → Mode → Interp β} {t : Task} (h : m.Comes (f a) s₁ t s') :
    m.Comes (fun m => x m >>= fun a => f a m) s t s' := by
  intro e
  obtain ⟨s₂, h₂⟩ := h e
  have happrox := hx.planted_approx e t s' hm hE s hs
  rw [hrun] at happrox
  -- the planted end may come up in the first part already
  rcases happrox with h | ⟨_, s₃, h, rfl⟩
  · exact ⟨s₂, (bind_ok h).trans h₂⟩
  · exact ⟨s₃, bind_error h⟩

/-! ### Programs without end -/

section Stalls

variable {w : World} {checked : Bool} {guard : Guard} {ties : TieOrder}

/-- The code uses up every bound on the steps. -/
def World.Stalls (w : World) (checked : Bool) (guard : Guard) (ties : TieOrder) {α : Type}
    (x : Mode → Interp α) (s : State) : Prop :=
  ∀ n, Exhausts (x (w.mode checked guard ties n) s)

/-- The code comes to the piece `t` in the state `s'`, with any bound on the steps that is large
enough. -/
def World.Comes (w : World) (checked : Bool) (guard : Guard) (ties : TieOrder) {α : Type}
    (x : Mode → Interp α) (s : State) (t : Task) (s' : State) : Prop :=
  ∃ n₀, ∀ n, n₀ ≤ n → (w.mode checked guard ties n).Comes x s t s'

/-- The piece `t` in the state `s'` can come up in code with the effects `E` from the state `s`: it
stands in the code, or in that of a call inside. -/
def Effects.Inner (E : Effects) (s : State) (t : Task) (s' : State) : Prop :=
  s'.running = s.running ∧ (E.now t ∨ E.later t.node) ∨ s.running.length < s'.running.length

variable {E : Effects} {p q : Phase} {α : Type} {x : Mode → Interp α} {V : α → Prop}

/-- More steps change no result of a program that was reached. -/
theorem Program.mode_mono (hw : w.Closed) (h : Program w E p x V q) (hE : E.Within w) {n n' : Nat}
    (hn : n ≤ n') (s : State) (hs : w.Tracked s) :
    Approx OutOfSteps (x (w.mode checked guard ties n) s) (x (w.mode checked guard ties n') s) :=
  h.approx (w.mode checked guard ties n') (exec_lawful hw checked guard ties n) steady_true rfl
    (.inl rfl) (fun _ _ _ => .refl) (fun t s _ _ _ => exec_mono _ hn t s) hE s hs trivial

/-- A program that comes to its end does so with more steps. -/
theorem Program.run_of_le (hw : w.Closed) (h : Program w E p x V q) (hE : E.Within w) {n n' : Nat}
    (hn : n ≤ n') {s s' : State} (hs : w.Tracked s) {a : α}
    (hrun : x (w.mode checked guard ties n) s = .ok a s') :
    x (w.mode checked guard ties n') s = .ok a s' := by
  have happrox : Approx OutOfSteps (x (w.mode checked guard ties n) s)
      (x (w.mode checked guard ties n') s) := h.mode_mono hw hE hn s hs
  rw [hrun] at happrox
  exact happrox.ok

/-- A program that uses up all large bounds uses up all bounds. -/
theorem Program.stalls_of_ge (hw : w.Closed) (h : Program w E p x V q) (hE : E.Within w)
    {s : State} (hs : w.Tracked s) (n₀ : Nat)
    (hstall : ∀ n, n₀ ≤ n → Exhausts (x (w.mode checked guard ties n) s)) :
    w.Stalls checked guard ties x s := fun n =>
  exhausts_of_approx (h.mode_mono hw hE (Nat.le_max_right n₀ n) s hs)
    (hstall _ (Nat.le_max_left n₀ n))

/-- If one program after another has no end, then the first one has none, or it comes to its end
and the second one has none. -/
theorem Program.stalls_bind (hw : w.Closed) (hx : Program w E p x V q) (hE : E.Within w)
    {β : Type} {f : α → Mode → Interp β} {U : β → Prop} {r : Phase}
    (hf : ∀ a, V a → Program w E q (f a) U r) {s : State} (hs : w.Tracked s)
    (hstall : w.Stalls checked guard ties (fun m => x m >>= fun a => f a m) s) :
    w.Stalls checked guard ties x s ∨
      ∃ n₀ a s₁, (∀ n, n₀ ≤ n → x (w.mode checked guard ties n) s = .ok a s₁) ∧
        w.Stalls checked guard ties (f a) s₁ := by
  refine or_iff_not_imp_left.mpr fun hfirst => ?_
  obtain ⟨n₀, hend⟩ := not_forall.mp hfirst
  cases hrun : x (w.mode checked guard ties n₀) s with
  | error e s₁ =>
    obtain ⟨s', hfull⟩ := hstall n₀
    cases (bind_error hrun).symm.trans hfull
    exact absurd ⟨s₁, hrun⟩ hend
  | ok a s₁ =>
    have hok : ∀ n, n₀ ≤ n → x (w.mode checked guard ties n) s = .ok a s₁ := fun n hn =>
      hx.run_of_le hw hE hn hs hrun
    obtain ⟨ha, hs₁, -⟩ := hx.lawful (exec_lawful hw checked guard ties n₀) hE s a s₁ hs hrun
    refine ⟨n₀, a, s₁, hok, (hf a ha).stalls_of_ge hw hE hs₁ n₀ fun n hn => ?_⟩
    obtain ⟨s', hfull⟩ := hstall n
    exact ⟨s', (bind_ok (hok n hn)).symm.trans hfull⟩

/-- A call without end runs code that comes to a piece without end. -/
theorem exists_stalls_enter {site : Option Pos} {decl : DeclId} {cls : Option ClassId}
    {seed : RefSet} {x : Mode → Interp Unit} (hseed : ∀ r ∈ seed, w.Tracks r ∧ IsSeed r)
    {E' : Effects} (hx : ∀ s, w.Tracked s → w.Stalls checked guard ties x s →
      ∃ t s', E'.Inner s t s' ∧ w.Tracked s' ∧
        Diverges ⟨w.table, w.catalog, checked, guard, ties⟩ t s' ∧
        w.Comes checked guard ties x s t s')
    {s : State}
    (hstall : w.Stalls checked guard ties (fun m => enter (w.env m) site decl cls seed (x m)) s) :
    ∃ t s', E.Inner s t s' ∧ w.Tracked s' ∧
      Diverges ⟨w.table, w.catalog, checked, guard, ties⟩ t s' ∧
      w.Comes checked guard ties (fun m => enter (w.env m) site decl cls seed (x m)) s t s' := by
  obtain ⟨pos, rfl, hcut, -⟩ := exhausts_enter (hstall 0)
  obtain ⟨t, s', hinner, hs', hdiv, n₀, hcomes⟩ := hx (s.called pos decl cls seed)
    (fun r hr => (hseed r (RefSet.mem_canonical.mp hr)).1) fun n => by
      obtain ⟨_, ⟨⟩, -, hbody⟩ := exhausts_enter (hstall n)
      exact hbody
  refine ⟨t, s', .inr ?_, hs', hdiv, n₀, fun n hn => (hcomes n hn).of_enter hcut⟩
  rcases hinner with ⟨h, -⟩ | h
  · rw [h]
    exact Nat.lt_succ_self _
  · exact Nat.lt_trans (Nat.lt_succ_self _) h

/-- A program without end comes to a piece inside that has no end. -/
theorem Program.exists_stalls (hw : w.Closed) (h : Program w E p x V q) (hE : E.Within w) :
    ∀ s, w.Tracked s → w.Stalls checked guard ties x s →
      ∃ t s', E.Inner s t s' ∧ w.Tracked s' ∧
        Diverges ⟨w.table, w.catalog, checked, guard, ties⟩ t s' ∧
        w.Comes checked guard ties x s t s' := by
  have hlawful := exec_lawful hw checked guard ties
  induction h with
  | pure => exact fun s _ hstall => nomatch hstall 0
  | @bind E p q r α β x f V U hx hf ihx ihf =>
    intro s hs hstall
    rcases hx.stalls_bind hw hE hf hs hstall with hfirst | ⟨n₀, a, s₁, hok, hsecond⟩
    · obtain ⟨t, s', hinner, hs', hdiv, n₀, hcomes⟩ := ihx hE s hs hfirst
      exact ⟨t, s', hinner, hs', hdiv, n₀, fun n hn => (hcomes n hn).of_bind⟩
    · obtain ⟨ha, hs₁, hframe⟩ := hx.lawful (hlawful n₀) hE s a s₁ hs (hok n₀ (Nat.le_refl n₀))
      obtain ⟨t, s', hinner, hs', hdiv, n₁, hcomes⟩ := ihf a ha hE s₁ hs₁ hsecond
      refine ⟨t, s', ?_, hs', hdiv, max n₀ n₁, fun n hn => ?_⟩
      · rw [Effects.Inner, ← hframe.running]
        exact hinner
      · exact hx.comes_bind (hlawful n) hE hs (hok n (Nat.le_trans (Nat.le_max_left n₀ n₁) hn))
          (hcomes n (Nat.le_trans (Nat.le_max_right n₀ n₁) hn))
  | weaken _ _ _ _ ih => exact ih hE
  | @run E t hcover =>
    intro s hs hstall
    exact ⟨t, s, .inl ⟨rfl, .inl hcover.1⟩, hs, hstall, 0, fun _ _ e => ⟨s, planted_walk_self⟩⟩
  | stop he =>
    intro s _ hstall
    obtain ⟨s', h⟩ := hstall 0
    cases h
    exact absurd rfl he
  | ask _ ih => exact fun s hs hstall => ih s.methodClass hE s hs hstall
  | basic _ => exact fun s _ hstall => absurd (hstall 0) not_exhausts_onRefs
  | leakAt => exact fun s _ hstall => absurd (hstall 0) not_exhausts_leakAt
  | scope _ ih =>
    intro s hs hstall
    obtain ⟨t, s', hinner, hs', hdiv, n₀, hcomes⟩ := ih hE { s with depth := s.depth + 1 } hs
      fun n => exhausts_inScope not_exhausts_dropResult (hstall n)
    exact ⟨t, s', hinner, hs', hdiv, n₀, fun n hn => (hcomes n hn).of_inScope⟩
  | promote _ ih =>
    intro s hs hstall
    obtain ⟨t, s', hinner, hs', hdiv, n₀, hcomes⟩ := ih hE { s with depth := s.depth + 1 } hs
      fun n => exhausts_inScope (not_exhausts_promoteResult _) (hstall n)
    exact ⟨t, s', hinner, hs', hdiv, n₀, fun n hn => (hcomes n hn).of_inScope⟩
  | call he hb _ hin hseed hne _ ih =>
    exact fun s _ hstall => exists_stalls_enter hseed (ih (Effects.within_inside hin)) hstall
  | visit hc _ hin hseed hne _ ih =>
    intro s _ hstall
    obtain ⟨t, s', hinner, hs', hdiv, n₀, hcomes⟩ := exists_stalls_enter hseed
      (ih (Effects.within_inside hin)) fun n => exhausts_discard (hstall n)
    exact ⟨t, s', hinner, hs', hdiv, n₀, fun n hn => (hcomes n hn).of_bind⟩
  | deferred _ _ _ ih =>
    intro s hs hstall
    obtain ⟨t, s', hinner, hs', hdiv, n₀, hcomes⟩ := ih hE.deferred s.deferring hs fun n =>
      exhausts_deferred (hstall n)
    refine ⟨t, s', ?_, hs', hdiv, n₀, fun n hn => (hcomes n hn).of_deferred⟩
    exact hinner.imp (fun h => ⟨h.1, .inr (h.2.elim id id)⟩) id
  | check => exact fun s _ hstall => absurd (hstall 0) (not_exhausts_check _ _ s)

end Stalls

/-! ### Smaller pieces -/

/-- A measure of the pieces of a program: the passes of a loop come below the loop. -/
noncomputable def Task.size : Task → Nat
  | expr e => 2 * sizeOf (Node.expr e) + 1
  | drop e => 2 * sizeOf (Node.expr e) + 1
  | stmt s => 2 * sizeOf (Node.stmt s) + 1
  | loop s => 2 * sizeOf (Node.stmt s)

theorem Task.size_lt {t t' : Task} (h : sizeOf t'.node < sizeOf t.node) : t'.size < t.size := by
  have hle : t'.size ≤ 2 * sizeOf t'.node + 1 := by cases t' <;> simp [size, node]
  have hge : 2 * sizeOf t.node ≤ t.size := by cases t <;> simp [size, node]
  omega

/-- What comes up in a piece is smaller, or stands in the code of a call. -/
theorem Effects.Inner.size_lt {t t' : Task} {s s' : State} (h : (ofTask t).Inner s t' s') :
    s'.running = s.running ∧ t'.size < t.size ∨ s.running.length < s'.running.length := by
  rcases h with ⟨hrunning, (h | ⟨stmt, rfl, rfl⟩) | h⟩ | h
  · exact .inl ⟨hrunning, Task.size_lt h.below.sizeOf_lt⟩
  · exact .inl ⟨hrunning, Nat.lt_succ_self _⟩
  · exact .inl ⟨hrunning, Task.size_lt h.sizeOf_lt⟩
  · exact .inr h

/-! ### What an interpretation comes to -/

section Calls

variable {w : World} {checked : Bool} {guard : Guard} {ties : TieOrder} {t t' : Task} {s s' : State}

/-- What holds at the start of all code holds where an interpretation comes to. -/
theorem Calls.steady (hw : w.Closed) {I : Phase → State → Prop}
    (hI : ∀ n, Steady w (w.mode checked guard ties n) I)
    (h : Calls ⟨w.table, w.catalog, checked, guard, ties⟩ t s t' s') (ht : w.nodes t.node)
    (hs : w.Tracked s) (hp : I .idle s) :
    w.nodes t'.node ∧ w.Tracked s' ∧ I .idle s' := by
  obtain ⟨n, h⟩ := h
  by_contra hnot
  let M := w.mode checked guard ties n
  refine false_of_all_ends (r := step (w.env M) M.walk M.passes t s) fun e _ => ?_
  -- if the state is none in which code starts, the planted end is never seen
  have hsame : Approx (fun _ _ => False) (step (w.env M) M.walk M.passes t s)
      (step (w.env M) (M.planted e t' s').walk M.passes t s) := by
    refine step_approx (M.planted e t' s') hw (exec_lawful hw checked guard ties n) (hI n) rfl
      (.inl rfl) (Nat.le_refl n) (fun h => absurd h (Nat.lt_irrefl n)) (fun _ _ _ => .refl) ?_ t ht
      s hs hp
    intro t s ht hs hp
    rw [planted_walk_of_ne]
    · exact .refl
    · rintro ⟨rfl, rfl⟩
      exact hnot ⟨ht, hs, hp⟩
  obtain ⟨s₁, h₁⟩ := h e
  rcases hsame with h | ⟨_, _, _, ⟨⟩⟩
  exact ⟨s₁, h.trans h₁⟩

/-- More steps change nothing about a planted end that an interpretation has come to. -/
theorem planted_of_le {env : Env} {s₁ : State} {e : Stop} (he : e ≠ .exhausted) {n n' : Nat}
    (hn : n ≤ n') (h : step env (plant (exec env n) e t' s') n t s = .error e s₁) :
    step env (plant (exec env n') e t' s') n' t s = .error e s₁ := by
  have hw := World.all_closed env.table env.catalog
  let M := (World.all env.table env.catalog).mode env.checked env.guard env.ties
  have hM : (M n).Lawful _ := exec_lawful hw env.checked env.guard env.ties n
  have happrox : Approx OutOfSteps (step env (plant (exec env n) e t' s') n t s)
      (step env (plant (exec env n') e t' s') n' t s) := by
    refine step_approx (m := (M n).planted e t' s') ((M n').planted e t' s') hw
      (planted_lawful e t' s' hM) steady_true rfl (.inl rfl) hn (fun _ _ => rfl)
      (fun _ _ _ => .refl) ?_ t trivial s (World.all_tracked s) trivial
    intro t s _ _ _
    by_cases hpoint : t = t' ∧ s = s'
    · obtain ⟨rfl, rfl⟩ := hpoint
      rw [planted_walk_self, planted_walk_self]
      exact .refl
    · rw [planted_walk_of_ne hpoint, planted_walk_of_ne hpoint]
      exact exec_mono env hn t s
  refine (eq_of_approx happrox fun ⟨s₂, h₂⟩ => he ?_).symm.trans h
  cases h.symm.trans h₂
  rfl

/-- What comes to a piece without end has no end. -/
theorem Calls.diverges {env : Env} (h : Calls env t s t' s') (hd : Diverges env t' s') :
    Diverges env t s := by
  obtain ⟨n₀, h⟩ := h
  have hw := World.all_closed env.table env.catalog
  let M := (World.all env.table env.catalog).mode env.checked env.guard env.ties
  have hM (n : Nat) : (M n).Lawful _ := exec_lawful hw env.checked env.guard env.ties n
  intro n
  by_contra hend
  refine false_of_all_ends (r := exec env n t s) fun e he => ?_
  obtain ⟨s₁, h₁⟩ := h e
  let k := max n n₀
  have hn : n ≤ k + 1 := Nat.le_succ_of_le (Nat.le_max_left n n₀)
  have hmore := eq_of_approx (exec_mono env hn t s) hend
  -- with more steps the interpretation still ends with the planted end
  have hplanted := planted_of_le he (Nat.le_max_right n n₀) h₁
  have hback : Approx OutOfSteps (exec env (k + 1) t s)
      (step env (plant (exec env k) e t' s') k t s) := by
    refine step_approx (m := M k) ((M k).planted e t' s') hw (hM k) steady_true rfl
      (.inl rfl) (Nat.le_refl k) (fun _ _ => rfl) (fun _ _ _ => .refl) ?_ t trivial s
      (World.all_tracked s) trivial
    intro t s _ _ _
    by_cases hpoint : t = t' ∧ s = s'
    · obtain ⟨rfl, rfl⟩ := hpoint
      exact approx_of_exhausts (hd k)
    · rw [planted_walk_of_ne hpoint]
      exact .refl
  have hsame := eq_of_approx hback (hmore ▸ hend)
  exact ⟨s₁, hmore.trans (hsame.trans hplanted)⟩

end Calls

end EarlyEscape.Interp
