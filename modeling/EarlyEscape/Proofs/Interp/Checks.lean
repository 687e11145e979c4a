import EarlyEscape.Proofs.Interp.Approximation

/-!
# Checks find nothing

With checks, every statement is followed by a look for left over results.  There are none, so that
the checks never report an error and a run with checks is the same as a run without them.  The one
way in which they can differ is the listing itself: a check lists the references, and references
whose class has no text, a *stray* one, cannot always be listed.

## Main definitions

* `Interp.runAll` : statements interpreted one after the other.
* `Interp.Unlisted` : the end of a run at references that cannot be listed.

## Main results

* `Interp.exec_checked_approx` : with checks, a run agrees with that without checks unless it ends
  at references that cannot be listed.
* `Interp.runAll_checked` : no check ever reports a left over result.
* `Interp.stray_class_breaks_checks` : the case in which a check ends a run.
-/

namespace EarlyEscape.Interp

/-- Interprets statements one after the other. -/
def runAll (env : Env) (fuel : Nat) (stmts : List (Option Stmt)) : Interp Unit :=
  stmts.forM (runStmt (exec env fuel))

/-- The run has come to references that cannot be listed. -/
def Unlisted (t : SymbolTable) (e : Stop) (s : State) : Prop :=
  e = .missing ∧ s.refs.isListable t = false

/-- The phases hold at the start of all code. -/
theorem steady_in {w : World} {m : Mode} (hm : m.Lawful w) (ht : m.Tidy w) :
    Steady w m fun p s => s.In p where
  of_idle p _ h := h.of_idle p
  program h hE s a s' hs hp hrun := by
    have hend := h.tidy hm ht hE s hs hp
    rw [hrun] at hend
    exact hend
  deeper _ _ h := h.deeper
  deferring _ _ _ h := h
  called _ _ _ _ _ _ _ _ _ hseed _ := State.called_in_idle fun r hr => (hseed r hr).2

/-- In the idle phase a check changes nothing, unless the references cannot be listed. -/
theorem check_approx {w : World} {m m' : Mode} (hm' : m'.checked = false) {stmt : Stmt} {s : State}
    (hs : s.In .idle) :
    Approx (Unlisted w.table) (checkLeftovers (w.env m) stmt s)
      (checkLeftovers (w.env m') stmt s) := by
  have hoff : checkLeftovers (w.env m') stmt s = .ok () s := by
    rw [checkLeftovers_apply, World.env, hm']
    rfl
  rw [hoff, checkLeftovers_apply, hs.leftover?]
  split
  · split
    · exact .refl
    · next hlist => exact .error ⟨rfl, by simpa using hlist⟩
  · exact .refl

section Checked

variable {w : World} (hw : w.Closed) (guard : Guard) (ties : TieOrder)

include hw

/-- From the idle phase, an interpretation with checks agrees with that without checks, unless it
comes to references that cannot be listed. -/
theorem exec_checked_approx (n : Nat) (t : Task) (ht : w.nodes t.node) (s : State)
    (hs : w.Tracked s) (hp : s.In .idle) :
    Approx (Unlisted w.table) ((w.mode true guard ties n).walk t s)
      ((w.mode false guard ties n).walk t s) := by
  induction n generalizing t s with
  | zero => exact .refl
  | succ n ih =>
    have hM := exec_lawful hw true guard ties n
    exact step_approx (w.mode false guard ties n) hw hM
      (steady_in hM (exec_tidy hw true guard ties n)) rfl (.inl rfl) (Nat.le_refl n)
      (fun h => absurd h (Nat.lt_irrefl n)) (fun _ _ => check_approx rfl)
      (fun t s ht hs hp => ih t ht s hs hp) t ht s hs hp

end Checked

theorem State.start_in_idle (cls : Option ClassId) : (State.start cls).In .idle := by
  intro r hr k hk
  obtain rfl : r = .start cls := by simpa [State.start] using hr
  cases hk

/-- References of classes with a text can be listed. -/
theorem isListable_of_not_isStray {t : SymbolTable} (h : ∀ c, t.isStray c = false)
    (refs : RefSet) : refs.isListable t = true := by
  have htext : ∀ c, (t.classText? c).isSome = true := by
    intro c
    cases c with
    | none => rfl
    | some c => simp [SymbolTable.classText?, SymbolTable.qualifiedName?, h c]
  simp [RefSet.isListable, htext]

/-- Statements that are interpreted one after the other with checks never end with the report of a
left over result, whatever calls they simulate, and after each of them no result is left.  The
run is the same as that without checks unless a check has come to references that cannot be listed,
which takes a stray class. -/
theorem runAll_checked (env : Env) (fuel : Nat) (cls : Option ClassId)
    (stmts : List (Option Stmt)) :
    (∀ e s', runAll { env with checked := true } fuel stmts (.start cls) = .error e s' →
      ¬e.IsSurvivor) ∧
    (∀ s', runAll { env with checked := true } fuel stmts (.start cls) = .ok () s' →
      ∀ r ∈ s'.refs, r.kind ≠ .expr) ∧
    (runAll { env with checked := true } fuel stmts (.start cls) =
        runAll { env with checked := false } fuel stmts (.start cls) ∨
      ∃ s', runAll { env with checked := true } fuel stmts (.start cls) = .error .missing s' ∧
        s'.refs.isListable env.table = false) ∧
    ((∀ c, env.table.isStray c = false) →
      runAll { env with checked := true } fuel stmts (.start cls) =
        runAll { env with checked := false } fuel stmts (.start cls)) := by
  let w := World.all env.table env.catalog
  have hw : w.Closed := World.all_closed env.table env.catalog
  have hM := exec_lawful hw true env.guard env.ties fuel
  have hT := exec_tidy hw true env.guard env.ties fuel
  have hx : Program w (.anything w) .idle (fun m => stmts.forM (runStmt m.walk))
      (fun _ => True) .idle :=
    program_runStmts fun _ _ _ _ => Effects.covers_anything trivial
  have hs : w.Tracked (.start cls) := World.all_tracked _
  have hin := State.start_in_idle cls
  have htidy := hx.tidy hM hT Effects.within_anything (.start cls) hs hin
  have happrox := hx.approx (w.mode false env.guard env.ties fuel) hM (steady_in hM hT) rfl
    (.inl rfl)
    (fun _ _ => check_approx rfl)
    (fun t s ht hs hp => exec_checked_approx hw env.guard env.ties fuel t ht s hs hp)
    Effects.within_anything (.start cls) hs hin
  refine ⟨fun e s' hrun => ?_, fun s' hrun r hr hkind => ?_, ?_, fun hstray => ?_⟩
  · change Tidy .idle (runAll { env with checked := true } fuel stmts (.start cls)) at htidy
    rw [hrun] at htidy
    exact htidy
  · obtain ⟨-, -, hframe⟩ := hx.lawful hM Effects.within_anything (.start cls) () s' hs hrun
    change Tidy .idle (runAll { env with checked := true } fuel stmts (.start cls)) at htidy
    rw [hrun] at htidy
    cases hrole : r.role with
    | expr k =>
      have hk : k < (State.start cls).depth := hframe.depth ▸ htidy r hr k hrole
      have hstart := (hframe.exprs r k hrole hk).mp hr
      obtain rfl : r = .start cls := by simpa [State.start] using hstart
      cases hrole
    | _ => simp [Ref.kind, hrole, Ref.Role.kind] at hkind
  · rcases happrox with h | ⟨e, s', hrun, rfl, hlist⟩
    · exact .inl h
    · exact .inr ⟨s', hrun, hlist⟩
  · rcases happrox with h | ⟨e, s', -, -, hlist⟩
    · exact h
    · have := isListable_of_not_isStray hstray s'.refs
      exact absurd (hlist.symm.trans this) Bool.false_ne_true

/-! ### A stray class -/

/-- A class `A`, and a class `L` declared in a method that no class declares. -/
def strayTable : SymbolTable where
  packages := #[{ name := "p" }]
  classes := #[{ name := "A", owner := some (.package ⟨0⟩) },
    { name := "L", kind := .localClass, owner := some (.method ⟨0⟩) }]
  methods := #[{ name := "loose" }]
  vars := #[{ name := "x" }]

/-- The statements `x = this; x = (L) this;`. -/
def strayStmts : List (Option Stmt) :=
  let x : Expr := .ident default "x" (some (.var ⟨0⟩))
  let this : Expr := .ident default "this" none
  [.exprStmt default (some (.assign default x this)),
    .exprStmt default (some (.assign default x (some (.cast default (some ⟨1⟩) this))))].map some

/-- After `x = (L) this` the variable holds two references that have no order, so that the check
ends a run that is without fault. -/
theorem stray_class_breaks_checks :
    runAll { table := strayTable, catalog := {}, checked := true } 4 strayStmts
        (.start (some ⟨0⟩)) ≠
      runAll { table := strayTable, catalog := {}, checked := false } 4 strayStmts
        (.start (some ⟨0⟩)) ∧
    (∃ s', runAll { table := strayTable, catalog := {}, checked := true } 4 strayStmts
      (.start (some ⟨0⟩)) = .error .missing s') ∧
    ∃ s', runAll { table := strayTable, catalog := {}, checked := false } 4 strayStmts
      (.start (some ⟨0⟩)) = .ok () s' := by
  have hon : ∃ s', runAll { table := strayTable, catalog := {}, checked := true } 4 strayStmts
      (.start (some ⟨0⟩)) = .error .missing s' := ⟨_, rfl⟩
  have hoff : ∃ s', runAll { table := strayTable, catalog := {}, checked := false } 4 strayStmts
      (.start (some ⟨0⟩)) = .ok () s' := ⟨_, rfl⟩
  refine ⟨fun h => ?_, hon, hoff⟩
  obtain ⟨s₁, hon⟩ := hon
  obtain ⟨s₂, hoff⟩ := hoff
  rw [hon, hoff] at h
  cases h

end EarlyEscape.Interp
