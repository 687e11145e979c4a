import EarlyEscape.Analysis
import EarlyEscape.Proofs.Interp.Reach

/-!
# Runs of sessions

A session interprets statements in order up to the first one that leaks.  Its run is read off the
runs of the statements, and like them it is not changed by a larger bound on the steps.

## Main definitions

* `Analysis.Ends` : a session comes to an outcome.

## Main results

* `Analysis.session_cases` : how a session ends.
* `Analysis.runUntilLeak_mono` : more steps change no result that was reached.
* `Analysis.runUntilLeak_steady` : what holds at the start of all code holds between statements.
* `Analysis.exists_diverges` : a session without end comes to a statement without end.
* `Analysis.ends_iff` : a session comes to an outcome unless it uses up every bound.
-/

namespace EarlyEscape.Analysis

open Interp

/-- The session comes to an outcome, which is the same for all bounds on the steps that are large
enough. -/
def Ends (env : Env) (cls : Option ClassId) (stmts : List (Option Stmt)) : Prop :=
  ∃ o : Outcome, o.stop ≠ some .exhausted ∧
    ∃ bound, ∀ fuel, bound ≤ fuel → session env fuel cls stmts = o

/-! ### One statement after the other -/

section Run

variable {walk : Walk} {stmt : Option Stmt} {stmts : List (Option Stmt)} {s s₁ : State}

theorem runUntilLeak_of_error {e : Stop} (h : runStmt walk stmt s = .error e s₁) :
    runUntilLeak walk (stmt :: stmts) s = .error e s₁ :=
  bind_error h

theorem runUntilLeak_of_leak (h : runStmt walk stmt s = .ok () s₁) (hleak : s₁.pending ≠ none) :
    runUntilLeak walk (stmt :: stmts) s = .ok () s₁ := by
  refine (bind_ok h).trans ?_
  change (if s₁.pending.isSome then pure () else runUntilLeak walk stmts : Interp Unit) s₁ = _
  rw [if_pos (Option.isSome_iff_ne_none.mpr hleak)]
  rfl

theorem runUntilLeak_of_quiet (h : runStmt walk stmt s = .ok () s₁) (hquiet : s₁.pending = none) :
    runUntilLeak walk (stmt :: stmts) s = runUntilLeak walk stmts s₁ := by
  refine (bind_ok h).trans ?_
  change (if s₁.pending.isSome then pure () else runUntilLeak walk stmts : Interp Unit) s₁ = _
  rw [if_neg (by simp [hquiet])]

/-- A session goes on after a statement that does not leak. -/
theorem runUntilLeak_eq_ok {s' : State}
    (h : runUntilLeak walk (stmt :: stmts) s = .ok () s') :
    ∃ s₁, runStmt walk stmt s = .ok () s₁ ∧ (s₁.pending ≠ none ∧ s' = s₁ ∨
      s₁.pending = none ∧ runUntilLeak walk stmts s₁ = .ok () s') := by
  cases hrun : runStmt walk stmt s with
  | error e s₁ => cases (runUntilLeak_of_error hrun).symm.trans h
  | ok _ s₁ =>
    refine ⟨s₁, rfl, ?_⟩
    by_cases hleak : s₁.pending = none
    · exact .inr ⟨hleak, (runUntilLeak_of_quiet hrun hleak).symm.trans h⟩
    · cases (runUntilLeak_of_leak hrun hleak).symm.trans h
      exact .inl ⟨hleak, rfl⟩

/-- The statements after others start where these end, unless there is a leak. -/
theorem runUntilLeak_append {before after : List (Option Stmt)}
    (h : runUntilLeak walk before s = .ok () s₁) (hquiet : s₁.pending = none) :
    runUntilLeak walk (before ++ after) s = runUntilLeak walk after s₁ := by
  induction before generalizing s with
  | nil =>
    cases h
    rfl
  | cons stmt before ih =>
    obtain ⟨s₂, hrun, ⟨hleak, rfl⟩ | ⟨hleak, hrest⟩⟩ := runUntilLeak_eq_ok h
    · exact absurd hquiet hleak
    · rw [List.cons_append, runUntilLeak_of_quiet hrun hleak]
      exact ih hrest

end Run

/-! ### Outcomes -/

section Outcomes

variable (env : Env) (n : Nat) (cls : Option ClassId) (stmts : List (Option Stmt))

/-- A session ends with the error of its statements, without a leak, with a leak in a class that has
no name, or with the trail of the leak. -/
theorem session_cases :
    (∃ e s, runUntilLeak (exec env n) stmts (.start cls) = .error e s ∧
      session env n cls stmts = { log := s.log, stop := some e }) ∨
    (∃ s, runUntilLeak (exec env n) stmts (.start cls) = .ok () s ∧ s.pending = none ∧
      session env n cls stmts = { log := s.log }) ∨
    (∃ s, runUntilLeak (exec env n) stmts (.start cls) = .ok () s ∧ s.pending ≠ none ∧
      env.table.classText? cls = none ∧
      session env n cls stmts = { log := s.log, stop := some .missing }) ∨
    ∃ s trail name, runUntilLeak (exec env n) stmts (.start cls) = .ok () s ∧
      s.pending = some trail ∧ env.table.classText? cls = some name ∧
      session env n cls stmts =
        { trails := [trail], log := s.log ++ [.possibleEscape name trail.length] } := by
  unfold session sessionBy EStateM.run
  cases runUntilLeak (exec env n) stmts (.start cls) with
  | error e s => exact .inl ⟨e, s, rfl, rfl⟩
  | ok _ s =>
    refine .inr ?_
    cases hp : s.pending with
    | none => exact .inl ⟨s, rfl, hp, by simp [hp]⟩
    | some trail =>
      refine .inr ?_
      cases hname : env.table.classText? cls with
      | none => exact .inl ⟨s, rfl, by simp [hp], rfl, by simp [hp]⟩
      | some name => exact .inr ⟨s, trail, name, rfl, hp, rfl, by simp [hp]⟩

end Outcomes

/-- The outcome of a session is told by the run of its statements. -/
theorem sessionBy_eq {t : SymbolTable} {walk walk' : Walk} {cls : Option ClassId}
    {stmts : List (Option Stmt)} (h : runUntilLeak walk stmts (.start cls) =
      runUntilLeak walk' stmts (.start cls)) :
    sessionBy t walk cls stmts = sessionBy t walk' cls stmts := by
  simp only [sessionBy, EStateM.run, h]

/-! ### Larger bounds -/

section Mono

variable (env : Env) {n n' : Nat}

theorem runStmt_mono (hn : n ≤ n') (stmt : Option Stmt) (s : State) :
    Approx OutOfSteps (runStmt (exec env n) stmt s) (runStmt (exec env n') stmt s) := by
  cases stmt with
  | none => exact .refl
  | some stmt => exact exec_mono env hn (.stmt stmt) s

/-- The statements of a session agree in two runs if each of them does. -/
theorem runUntilLeak_approx {bad : Stop → State → Prop} {walk walk' : Walk}
    {stmts : List (Option Stmt)} (h : ∀ stmt ∈ stmts, ∀ s,
      Approx bad (runStmt walk stmt s) (runStmt walk' stmt s)) (s : State) :
    Approx bad (runUntilLeak walk stmts s) (runUntilLeak walk' stmts s) := by
  induction stmts generalizing s with
  | nil => exact .refl
  | cons stmt stmts ih =>
    refine bind_approx (h stmt List.mem_cons_self s) fun _ s₁ _ => bind_approx .refl ?_
    rintro _ _ ⟨⟩
    split
    · exact .refl
    · exact ih (fun stmt hmem => h stmt (List.mem_cons_of_mem _ hmem)) s₁

/-- More steps change no result of a session that was reached. -/
theorem runUntilLeak_mono (hn : n ≤ n') (stmts : List (Option Stmt)) (s : State) :
    Approx OutOfSteps (runUntilLeak (exec env n) stmts s)
      (runUntilLeak (exec env n') stmts s) :=
  runUntilLeak_approx (fun stmt _ => runStmt_mono env hn stmt) s

variable {env} {cls : Option ClassId} {stmts : List (Option Stmt)}

/-- A session ends for lack of steps exactly when its statements do. -/
theorem session_stop_iff :
    (session env n cls stmts).stop = some .exhausted ↔
      Exhausts (runUntilLeak (exec env n) stmts (.start cls)) := by
  rcases session_cases env n cls stmts with ⟨e, s, hrun, h⟩ | ⟨s, hrun, -, h⟩ |
    ⟨s, hrun, -, -, h⟩ | ⟨s, trail, name, hrun, -, -, h⟩
  all_goals rw [hrun, h]
  · constructor
    · rintro ⟨⟩
      exact ⟨s, rfl⟩
    · rintro ⟨_, ⟨⟩⟩
      rfl
  all_goals exact iff_of_false nofun nofun

/-- More steps change no outcome of a session that was reached. -/
theorem session_eq_of_le (hend : (session env n cls stmts).stop ≠ some .exhausted) (hn : n ≤ n') :
    session env n' cls stmts = session env n cls stmts :=
  sessionBy_eq (eq_of_approx (runUntilLeak_mono env hn stmts (.start cls))
    fun h => hend (session_stop_iff.mpr h)).symm

/-- A session comes to an outcome unless it uses up every bound on the steps. -/
theorem ends_iff :
    Ends env cls stmts ↔ ∃ n, ¬Exhausts (runUntilLeak (exec env n) stmts (.start cls)) := by
  constructor
  · rintro ⟨o, ho, bound, h⟩
    refine ⟨bound, fun hend => ho ?_⟩
    rw [← h bound (Nat.le_refl bound)]
    exact session_stop_iff.mpr hend
  · rintro ⟨n, hend⟩
    have hstop := fun h => hend (session_stop_iff.mp h)
    exact ⟨session env n cls stmts, hstop, n, fun k hk => session_eq_of_le hstop hk⟩

end Mono

/-! ### States between statements -/

/-- What holds at the start of all code holds between the statements of a session. -/
theorem runUntilLeak_steady {w : World} {m : Mode} (hm : m.Lawful w) {I : Phase → State → Prop}
    (hI : Steady w m I) {stmts : List (Option Stmt)} (hn : ∀ stmt, some stmt ∈ stmts →
      w.nodes (.stmt stmt)) {s s' : State} (hs : w.Tracked s) (hp : I .idle s)
    (h : runUntilLeak m.walk stmts s = .ok () s') : w.Tracked s' ∧ I .idle s' := by
  induction stmts generalizing s with
  | nil =>
    cases h
    exact ⟨hs, hp⟩
  | cons stmt stmts ih =>
    have hx : Program w (.anything w) .idle (fun m => runStmt m.walk stmt) (fun _ => True) .idle :=
      program_runStmt fun x hx => Effects.covers_anything (hn x (hx ▸ List.mem_cons_self))
    obtain ⟨s₁, hrun, hrest⟩ := runUntilLeak_eq_ok h
    have hs₁ := (hx.lawful hm Effects.within_anything s () s₁ hs hrun).2.1
    have hp₁ := hI.program hx Effects.within_anything s () s₁ hs hp hrun
    rcases hrest with ⟨-, rfl⟩ | ⟨-, hrest⟩
    · exact ⟨hs₁, hp₁⟩
    · exact ih (fun x hx => hn x (List.mem_cons_of_mem _ hx)) hs₁ hp₁ hrest

/-- Interpreters that agree inside the bounds of a world agree on statements there. -/
theorem runUntilLeak_eq {w : World} {m : Mode} (hm : m.Lawful w) {walk : Walk}
    (hwalk : ∀ t s, w.nodes t.node → w.Tracked s → walk t s = m.walk t s)
    {stmts : List (Option Stmt)} (hn : ∀ stmt, some stmt ∈ stmts → w.nodes (.stmt stmt))
    {s : State} (hs : w.Tracked s) : runUntilLeak walk stmts s = runUntilLeak m.walk stmts s := by
  induction stmts generalizing s with
  | nil => rfl
  | cons stmt stmts ih =>
    have hx : Program w (.anything w) .idle (fun m => runStmt m.walk stmt) (fun _ => True) .idle :=
      program_runStmt fun x hx => Effects.covers_anything (hn x (hx ▸ List.mem_cons_self))
    have hstmt : runStmt walk stmt s = runStmt m.walk stmt s := by
      cases stmt with
      | none => rfl
      | some stmt => exact hwalk (.stmt stmt) s (hn stmt List.mem_cons_self) hs
    cases hrun : runStmt m.walk stmt s with
    | error e s₁ =>
      rw [runUntilLeak_of_error hrun, runUntilLeak_of_error (hstmt.trans hrun)]
    | ok _ s₁ =>
      have hs₁ := (hx.lawful hm Effects.within_anything s () s₁ hs hrun).2.1
      by_cases hleak : s₁.pending = none
      · rw [runUntilLeak_of_quiet hrun hleak, runUntilLeak_of_quiet (hstmt.trans hrun) hleak]
        exact ih (fun x hx => hn x (List.mem_cons_of_mem _ hx)) hs₁
      · rw [runUntilLeak_of_leak hrun hleak, runUntilLeak_of_leak (hstmt.trans hrun) hleak]

/-- A session without end comes to a statement without end. -/
theorem exists_diverges (env : Env) (stmts : List (Option Stmt)) {s : State}
    (hquiet : s.pending = none) (h : ∀ n, Exhausts (runUntilLeak (exec env n) stmts s)) :
    ∃ before stmt after n s₁, stmts = before ++ some stmt :: after ∧
      runUntilLeak (exec env n) before s = .ok () s₁ ∧ s₁.pending = none ∧
      Diverges env (.stmt stmt) s₁ := by
  induction stmts generalizing s with
  | nil => exact nomatch h 0
  | cons stmt stmts ih =>
    by_cases hdiv : ∀ n, Exhausts (runStmt (exec env n) stmt s)
    · cases stmt with
      | none => exact nomatch hdiv 0
      | some stmt => exact ⟨[], stmt, stmts, 0, s, rfl, rfl, hquiet, hdiv⟩
    · obtain ⟨n₀, hend⟩ := not_forall.mp hdiv
      cases hrun : runStmt (exec env n₀) stmt s with
      | error e s₁ =>
        obtain ⟨s', hfull⟩ := h n₀
        cases (runUntilLeak_of_error hrun).symm.trans hfull
        exact absurd ⟨s₁, hrun⟩ hend
      | ok _ s₁ =>
        have hok : ∀ n, n₀ ≤ n → runStmt (exec env n) stmt s = .ok () s₁ := fun n hn =>
          (eq_of_approx (runStmt_mono env hn stmt s) hend).symm.trans hrun
        by_cases hleak : s₁.pending = none
        · obtain ⟨before, next, after, n, s₂, rfl, hbefore, hquiet₂, hdiv⟩ := ih hleak fun n => by
            have hfull := h (max n n₀)
            rw [runUntilLeak_of_quiet (hok _ (Nat.le_max_right n n₀)) hleak] at hfull
            exact exhausts_of_approx
              (runUntilLeak_mono env (Nat.le_max_left n n₀) stmts s₁) hfull
          refine ⟨stmt :: before, next, after, max n n₀, s₂, rfl, ?_, hquiet₂, hdiv⟩
          rw [runUntilLeak_of_quiet (hok _ (Nat.le_max_right n n₀)) hleak]
          have hmore := runUntilLeak_mono env (Nat.le_max_left n n₀) before s₁
          rw [hbefore] at hmore
          exact hmore.ok
        · obtain ⟨s', hfull⟩ := h n₀
          cases (runUntilLeak_of_leak hrun hleak).symm.trans hfull

/-- A session that comes to a statement without end has no end. -/
theorem exhausts_of_diverges {env : Env} {before after : List (Option Stmt)} {stmt : Stmt}
    {n₀ : Nat} {s s₁ : State} (hrun : runUntilLeak (exec env n₀) before s = .ok () s₁)
    (hquiet : s₁.pending = none) (hdiv : Diverges env (.stmt stmt) s₁) (n : Nat) :
    Exhausts (runUntilLeak (exec env n) (before ++ some stmt :: after) s) := by
  refine exhausts_of_approx (runUntilLeak_mono env (Nat.le_max_left n n₀) _ s) ?_
  have hmore := runUntilLeak_mono env (Nat.le_max_right n n₀) before s
  rw [hrun] at hmore
  rw [runUntilLeak_append hmore.ok hquiet]
  obtain ⟨s₂, h⟩ := hdiv (max n n₀)
  exact ⟨s₂, runUntilLeak_of_error h⟩

end EarlyEscape.Analysis
