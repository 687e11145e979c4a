import EarlyEscape.Proofs.Analysis.Coverage
import EarlyEscape.Proofs.Interp.Checks
import EarlyEscape.Proofs.Interp.Known

/-!
# Nodes of unknown sorts

A statement or expression of an unknown sort in the code of a unit is met twice: by the walk that
builds the catalog, which goes through the code of all classes, and by the interpreter, which goes
through the code that it reaches.  The interpreter would report an error of the analysis, but the
walk comes first and ends the analysis without a report.  In a unit whose classes all have symbols
the interpreter therefore never comes to such a node.  Members of unknown sorts are no code and do
no harm.

## Main definitions

* `CompilationUnit.HasCode` : the node lies in the code of the unit.

## Main results

* `Catalog.build_cases` : a unit with an unknown node in its code has no catalog.
* `Analysis.run_aborts_on_unknown` : a unit with an unknown node in its code has no report, and a
  report never tells of an unknown node.
* `Analysis.run_bogusUnit_aborts` : a unit without a report.
-/

namespace EarlyEscape

namespace Catalog

namespace Builder

variable {t : SymbolTable} {module : Option ModuleId} {lint : Lint}

/-- The walk ends early at an unknown node that it finds, or at a class whose package cannot be
told. -/
theorem foldlM_meet_eq_error {fs : List Finding} {b : Builder} {e : BuildError}
    (h : fs.foldlM (meet t module lint) b = .error e) :
    (∃ x, .unknown x ∈ fs ∧ e = .unknownNode x) ∨
      e = .untold .package ∧ ∃ c, t.isStray c = true := by
  induction fs generalizing b with
  | nil => cases h
  | cons f fs ih =>
    rw [List.foldlM_cons] at h
    cases hfirst : meet t module lint b f with
    | ok b₁ =>
      rw [hfirst] at h
      rcases ih h with ⟨x, hx, he⟩ | hstray
      · exact .inl ⟨x, List.mem_cons_of_mem _ hx, he⟩
      · exact .inr hstray
    | error e' =>
      rw [hfirst] at h
      cases h
      cases f with
      | unknown x =>
        cases hfirst
        exact .inl ⟨x, List.mem_cons_self, rfl⟩
      | cls around d =>
        simp only [meet] at hfirst
        split at hfirst
        · cases hfirst
        · split at hfirst
          · cases hfirst
          · next c _ =>
            split at hfirst
            · next hstray =>
              cases hfirst
              exact .inr ⟨rfl, c, (Bool.and_eq_true_iff.mp hstray).2⟩
            · cases hfirst

end Builder

end Catalog

/-- The node lies in the code of the unit: the walk over the unit comes to it.  The code of a class
with a symbol is that of its fields, methods, initializers and member classes. -/
def CompilationUnit.HasCode (u : CompilationUnit) (n : Node) : Prop :=
  Relation.ReflTransGen Catalog.Leads (.file u) n

/-- The catalog of a unit cannot be built because of an unknown node in the code of the unit, or
because of a stray class; and it cannot be built if there is an unknown node in the code. -/
theorem Catalog.build_cases (t : SymbolTable) {u : CompilationUnit} (lint : Lint)
    (hids : (Node.file u).Identified) :
    (∃ cat, build t u lint = .ok cat ∧ ∀ n, u.HasCode n → n.isKnown = true) ∨
    (∃ n, u.HasCode n ∧ n.isKnown = false ∧ build t u lint = .error (.unknownNode ⟨n.sortText⟩)) ∨
    build t u lint = .error (.untold .package) ∧ ∃ c, t.isStray c = true := by
  rw [build_eq hids]
  cases hrun : (findings [] (.file u)).foldlM (Builder.meet t u.module lint) {} with
  | ok b =>
    refine .inl ⟨b.catalog, rfl, fun n hn => ?_⟩
    by_contra hunknown
    have hfound : .unknown ⟨n.sortText⟩ ∈ findings [] (.file u) :=
      unknown_mem_findings_iff.mpr ⟨n, hn, by simpa using hunknown, rfl⟩
    exact Builder.met_of_foldlM hrun _ hfound
  | error e =>
    rcases Builder.foldlM_meet_eq_error hrun with ⟨x, hx, rfl⟩ | ⟨rfl, hstray⟩
    · obtain ⟨n, hn, hunknown, rfl⟩ := unknown_mem_findings_iff.mp hx
      exact .inr (.inl ⟨n, hn, hunknown, rfl⟩)
    · exact .inr (.inr ⟨rfl, hstray⟩)

theorem Catalog.Visited.isKnown {u : CompilationUnit} {seen : List DeclId} {n : Node}
    (h : Visited u seen n) : n.isKnown = true := by
  by_contra hunknown
  exact h.met _ (unknown_mem_findings_iff.mpr ⟨n, .refl, by simpa using hunknown, rfl⟩)

namespace Analysis

open Interp

/-! ### Sessions over known code -/

/-- A session over known code never ends with an error of the analysis. -/
theorem runUntilLeak_not_internal {env : Env} {Q : Node → Prop} (hQ : CodeClosed env Q)
    (hknown : ∀ n, Q n → n.isKnown = true) (fuel : Nat) {stmts : List (Option Stmt)}
    (hstmts : ∀ stmt, some stmt ∈ stmts → Q (.stmt stmt)) {s : State} (hs : s.In .idle)
    (e : InternalError) (s' : State) :
    runUntilLeak (exec env fuel) stmts s ≠ .error (.internal e) s' := by
  have hw := World.all_closed env.table env.catalog
  have htidy := exec_tidy hw env.checked env.guard env.ties fuel
  induction stmts generalizing s with
  | nil => exact nofun
  | cons stmt stmts ih =>
    have hrest := fun stmt h => hstmts stmt (List.mem_cons_of_mem _ h)
    have hfirst : Tidy .idle (runStmt (exec env fuel) stmt s) ∧
        NoUnknown (runStmt (exec env fuel) stmt s) := by
      cases stmt with
      | none => exact ⟨hs, noUnknown_ok⟩
      | some stmt =>
        exact ⟨htidy (.stmt stmt) s trivial (World.all_tracked s) hs,
          exec_noUnknown (t := .stmt stmt) hQ hknown fuel (hstmts stmt List.mem_cons_self) s⟩
    intro hrun
    cases hstep : runStmt (exec env fuel) stmt s with
    | error e₁ s₁ =>
      rw [hstep] at hfirst
      cases (runUntilLeak_of_error hstep).symm.trans hrun
      exact hfirst.1 (hfirst.2 e s' rfl)
    | ok _ s₁ =>
      rw [hstep] at hfirst
      by_cases hleak : s₁.pending = none
      · exact ih hrest hfirst.1 ((runUntilLeak_of_quiet hstep hleak).symm.trans hrun)
      · cases (runUntilLeak_of_leak hstep hleak).symm.trans hrun

theorem session_not_internal {env : Env} {Q : Node → Prop} (hQ : CodeClosed env Q)
    (hknown : ∀ n, Q n → n.isKnown = true) (fuel : Nat) (cls : Option ClassId)
    {stmts : List (Option Stmt)} (hstmts : ∀ stmt, some stmt ∈ stmts → Q (.stmt stmt))
    (e : InternalError) : (session env fuel cls stmts).stop ≠ some (.internal e) := by
  have hstatements := runUntilLeak_not_internal hQ hknown fuel hstmts (State.start_in_idle cls) e
  rcases session_cases env fuel cls stmts with ⟨e', s, hrun, h⟩ | ⟨s, -, -, h⟩ | ⟨s, -, -, -, h⟩ |
    ⟨s, trail, name, -, -, -, h⟩
  all_goals rw [h]
  · rintro ⟨⟩
    exact hstatements s hrun
  all_goals exact nofun

/-! ### The analysis of a unit -/

/-- The analysis of classes with a catalog never ends at an unknown node. -/
theorem runClassesBy_ne_unknownNode {env : Env} {walk : Walk} {config : Config} {file : String}
    {count : Nat} {ds : List ClassDecl} {trails : List Trail} {log : List LogRecord}
    {x : UnknownNode} :
    runClassesBy env walk config file count ds trails log ≠ .error (.unknownNode x) := by
  induction ds generalizing trails log with
  | nil => rintro ⟨⟩
  | cons d ds ih =>
    simp only [runClassesBy]
    split
    · exact ih
    all_goals rintro ⟨⟩

/-- A unit is reported with the failure that its analysis has. -/
theorem runBy_cases (t : SymbolTable) (walk : Env → Walk) (config : Config) (u : CompilationUnit) :
    (∃ a, runUnitBy t walk config u = .error a ∧ runBy t walk config (some u) true = .error a) ∨
    ∃ r r', runUnitBy t walk config u = .ok r ∧ runBy t walk config (some u) true = .ok r' ∧
      r'.failure = r.failure := by
  simp only [runBy, if_true]
  cases runUnitBy t walk config u with
  | error a => exact .inl ⟨a, rfl, rfl⟩
  | ok r =>
    refine .inr ⟨r, _, rfl, rfl, ?_⟩
    split <;> rfl

/-- If the catalog of a unit can be built, its analysis does not end at an unknown node, and it does
not fail. -/
theorem runUnitBy_of_build {t : SymbolTable} (ties : TieOrder) (fuel : Nat) {config : Config}
    {u : CompilationUnit} {cat : Catalog} (hids : (Node.file u).Identified)
    (hsyms : ∀ d ∈ (Node.file u).classes, d.sym ≠ none)
    (hbuild : Catalog.build t u { enabled := config.enabled } = .ok cat) :
    let walk : Env → Walk := fun env => exec { env with ties } fuel
    (∀ x, runUnitBy t walk config u ≠ .error (.unknownNode x)) ∧
      ∀ r, runUnitBy t walk config u = .ok r → r.failure = none := by
  intro walk
  let env : Env := { table := t, catalog := cat, checked := config.invariants, ties }
  simp only [runUnitBy, hbuild]
  refine ⟨fun x => runClassesBy_ne_unknownNode, fun r hr => ?_⟩
  rcases runClassesBy_cases hr with ⟨-, hfailure, -⟩ | ⟨before, s, after, e, hss, -, hstop, -⟩
  · exact hfailure
  · obtain ⟨seen, hclosed, hclasses, -⟩ := Catalog.exists_visited env hids hsyms hbuild
    have hs : s ∈ sessions env config := by
      have hmem : s ∈ before ++ s :: after := List.mem_append_right _ List.mem_cons_self
      rw [← hss] at hmem
      exact hmem
    exact absurd hstop (session_not_internal hclosed (fun n => Catalog.Visited.isKnown) fuel _
      (fun stmt => codeClosed_session hclosed hclasses hs) e)

/-- In a unit in which class declarations with the same identity are the same and all classes have
symbols: an unknown node in the code of the unit ends the analysis without a report, unless a class
has done so that is declared in a method without a class; it is the only thing that ends it in this
way; and a report never tells of an error of the analysis. -/
theorem run_aborts_on_unknown (t : SymbolTable) (ties : TieOrder) (fuel : Nat) (config : Config)
    (u : CompilationUnit) (hids : (Node.file u).Identified)
    (hsyms : ∀ d ∈ (Node.file u).classes, d.sym ≠ none) :
    ((∃ n, u.HasCode n ∧ n.isKnown = false) →
      (∃ x, run t ties fuel config (some u) true = .error (.unknownNode x)) ∨
        run t ties fuel config (some u) true = .error .missing ∧ ∃ c, t.isStray c = true) ∧
    (∀ x, run t ties fuel config (some u) true = .error (.unknownNode x) →
      ∃ n, u.HasCode n ∧ n.isKnown = false ∧ x = ⟨n.sortText⟩) ∧
    ∀ r, run t ties fuel config (some u) true = .ok r → r.failure = none := by
  have hrun := runBy_cases t (fun env => exec { env with ties } fuel) config u
  rcases Catalog.build_cases t { enabled := config.enabled } hids with
    ⟨cat, hbuild, hall⟩ | ⟨n, hn, hunknown, hbuild⟩ | ⟨hbuild, hstray⟩
  · obtain ⟨hne, hquiet⟩ := runUnitBy_of_build ties fuel hids hsyms hbuild
    refine ⟨?_, fun x hx => ?_, fun r hr => ?_⟩
    · rintro ⟨n, hn, hunknown⟩
      rw [hall n hn] at hunknown
      cases hunknown
    · rcases hrun with ⟨a, hunit, ha⟩ | ⟨_, _, _, hok, _⟩
      · cases ha.symm.trans hx
        exact absurd hunit (hne x)
      · cases hok.symm.trans hx
    · rcases hrun with ⟨a, _, ha⟩ | ⟨r₁, r', hunit, hok, hfailure⟩
      · cases ha.symm.trans hr
      · cases hok.symm.trans hr
        rw [hfailure, hquiet r₁ hunit]
  · have hrun : run t ties fuel config (some u) true = .error (.unknownNode ⟨n.sortText⟩) := by
      simp [run, runBy, runUnitBy, hbuild, Except.map]
    rw [hrun]
    refine ⟨fun _ => .inl ⟨_, rfl⟩, ?_, ?_⟩
    · rintro _ ⟨⟩
      exact ⟨n, hn, hunknown, rfl⟩
    · rintro _ ⟨⟩
  · have hrun : run t ties fuel config (some u) true = .error .missing := by
      simp [run, runBy, runUnitBy, hbuild, Except.map]
    rw [hrun]
    exact ⟨fun _ => .inr ⟨rfl, hstray⟩, by rintro _ ⟨⟩, by rintro _ ⟨⟩⟩

/-! ### A unit without a report -/

/-- The symbols of a class `A` with a constructor and a method `m`. -/
def bogusTable : SymbolTable where
  packages := #[{ name := "p" }]
  classes := #[{ name := "Object", owner := some (.package ⟨0⟩), flags := .of [.publicAccess] },
    { name := "A", owner := some (.package ⟨0⟩), flags := .of [.publicAccess], super := some ⟨0⟩ }]
  methods := #[
    { name := "<init>", owner := some ⟨1⟩, flags := .of [.publicAccess], isConstructor := true },
    { name := "m", owner := some ⟨1⟩, flags := .of [.publicAccess] }]

/-- The statement of an unknown sort. -/
def bogusStmt : Stmt := .unknown ⟨8, 9⟩ "*main.BogusStmt"

/-- The class `public class A { public A() { } public void m() { ... } }`; no constructor or
initializer comes to the statement. -/
def bogusClass : ClassDecl where
  id := ⟨0⟩
  span := ⟨1, 12⟩
  sym := some ⟨1⟩
  annotations := []
  members := [.method ⟨⟨1⟩, ⟨2, 5⟩, some ⟨0⟩, [], [], some ⟨⟨3, 4⟩, false, []⟩⟩,
    .method ⟨⟨2⟩, ⟨6, 11⟩, some ⟨1⟩, [], [], some ⟨⟨7, 10⟩, false, [some bogusStmt]⟩⟩]

/-- The unit with the class `A`. -/
def bogusUnit : CompilationUnit where
  span := ⟨1, 12⟩
  name := "A.java"
  package := some ⟨0⟩
  module := none
  classes := [bogusClass]

theorem classes_bogusUnit : (Node.file bogusUnit).classes = [bogusClass] := by
  cbv

/-- A statement of an unknown sort in a method that is never called ends the analysis without a
report. -/
theorem run_bogusUnit_aborts :
    (∀ d ∈ (Node.file bogusUnit).classes, d.sym ≠ none) ∧
      run bogusTable .byIdentity 20 {} (some bogusUnit) true =
        .error (.unknownNode ⟨"*main.BogusStmt"⟩) := by
  rw [classes_bogusUnit]
  exact ⟨by simp [bogusClass], by cbv⟩

theorem hasCode_bogusStmt : bogusUnit.HasCode (.stmt bogusStmt) := by
  have hclass : Catalog.Leads (.file bogusUnit) (.ofClassDecl bogusClass) :=
    ⟨[], List.mem_cons_self⟩
  have hbody : Catalog.Leads (.ofClassDecl bogusClass)
      (.ofBlock ⟨⟨7, 10⟩, false, [some bogusStmt]⟩) :=
    ⟨_, List.mem_cons_of_mem _ List.mem_cons_self⟩
  have hstmt : Catalog.Leads (.ofBlock ⟨⟨7, 10⟩, false, [some bogusStmt]⟩) (.stmt bogusStmt) :=
    ⟨[], List.mem_cons_self⟩
  exact .head hclass (.head hbody (.single hstmt))

/-- The statement of an unknown sort is what ends the analysis of the unit. -/
theorem run_aborts_on_unknown_bogusUnit :
    (Node.file bogusUnit).Identified ∧ (∀ d ∈ (Node.file bogusUnit).classes, d.sym ≠ none) ∧
      bogusUnit.HasCode (.stmt bogusStmt) ∧
      ((∃ x, run bogusTable .byIdentity 20 {} (some bogusUnit) true = .error (.unknownNode x)) ∨
        run bogusTable .byIdentity 20 {} (some bogusUnit) true = .error .missing ∧
          ∃ c, bogusTable.isStray c = true) := by
  have hids : (Node.file bogusUnit).Identified := Node.identified_of_nodup (by
    rw [classes_bogusUnit]
    decide)
  have hsyms : ∀ d ∈ (Node.file bogusUnit).classes, d.sym ≠ none := by
    rw [classes_bogusUnit]
    simp [bogusClass]
  obtain ⟨haborts, -, -⟩ := run_aborts_on_unknown bogusTable .byIdentity 20 {} bogusUnit hids hsyms
  exact ⟨hids, hsyms, hasCode_bogusStmt, haborts ⟨_, hasCode_bogusStmt, rfl⟩⟩

end Analysis

end EarlyEscape
