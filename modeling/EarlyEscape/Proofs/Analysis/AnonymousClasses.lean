import EarlyEscape.Proofs.Analysis.Session
import EarlyEscape.Proofs.Analysis.Unit
import EarlyEscape.Proofs.Interp.AnonymousClasses

/-!
# Captured variables in anonymous classes

A method of an anonymous class sees the local variables of the code around it, an initializer of the
class does not.  A block that reads no captured variable finds the same leak in either place; one
that hands a captured variable to unknown code finds it only as the body of a method.

## Main results

* `Analysis.initializer_finds_leak` : the leak that a block finds as the body of a method, it finds
  as an initializer if it reads no captured variable.
* `Analysis.initializer_misses_captured` : it can miss the leak otherwise.
-/

namespace EarlyEscape.Analysis

open Interp
open Node (method_mem_children allWithin of_allWithin)

/-- From every state, the creation of an instance of an anonymous class whose only member is an
instance method without parameters comes to the same references and to the same leak when the block
of the method stands as an initializer of the class instead, provided that the block reads no local
variable that holds a reference and that no call of the class or of the method is left out. -/
theorem initializer_finds_leak (t : SymbolTable) (u : CompilationUnit) (lint : Lint)
    (cat : Catalog) (hcat : Catalog.build t u lint = .ok cat) (hids : (Node.file u).declIds.Nodup)
    (checked : Bool) (guard : Guard) (ties : TieOrder) (span : Span) (outer : Option Expr)
    (cls : Option ClassId) (ctor : Option MethodId) (args : List (Option Expr)) (d : ClassDecl)
    (md : MethodDecl) (body : Block)
    (hn : (Node.file u).Below (.expr (.new span outer cls ctor args (some d))))
    (honly : d.OnlyMethod t md body) (fuel : Nat) (s s' : State)
    (hrun : exec ⟨t, cat, checked, guard, ties⟩ fuel
      (.expr (.new span outer cls ctor args (some d))) s = .ok () s')
    (hclass : ¬LeftOut d.id s s') (hmethod : ¬LeftOut md.id s s')
    (hunread : ∀ r ∈ s'.refs, ∀ v, r.role = .var v → (Node.ofBlock body).NeverReads v) :
    ∃ k s'', exec ⟨t, cat, checked, guard, ties⟩ k
        (.expr (.new span outer cls ctor args (some (d.withInitializer body)))) s = .ok () s'' ∧
      s''.refs = s'.refs ∧ s''.pending = s'.pending := by
  have hdescribes := Catalog.describes_of_build hcat
  exact exists_exec_withInitializer (w := unitWorld t cat u) (unitWorld_closed hdescribes)
    (unitWorld_oneCode hdescribes hids) hn honly (unitWorld_tracked s) hrun hclass hmethod hunread

/-! ### A class in a constructor -/

/-- A class `A` with a constructor, an anonymous class in it with a method `m`, and a class `R` with
a static method `register`. -/
def captureTable : SymbolTable where
  packages := #[{ name := "p" }]
  classes := #[{ name := "Object", owner := some (.package ⟨0⟩) },
    { name := "A", owner := some (.package ⟨0⟩), flags := .of [.publicAccess], super := some ⟨0⟩ },
    { name := "R", owner := some (.package ⟨0⟩), flags := .of [.publicAccess], super := some ⟨0⟩ },
    { kind := .anonymous, owner := some (.cls ⟨1⟩), flags := .of [.final], super := some ⟨0⟩
      hasOuter := true }]
  methods := #[{ name := "register", owner := some ⟨2⟩, flags := .of [.publicAccess, .static] },
    { name := "<init>", owner := some ⟨1⟩, flags := .of [.publicAccess], isConstructor := true },
    { name := "m", owner := some ⟨3⟩, flags := .of [.publicAccess] }]
  vars := #[{ name := "x", type := some ⟨1⟩, kind := .localVar }]

/-- The block `{ R.register(e); }`. -/
def registerBlock (e : Expr) : Block where
  span := default
  isStatic := false
  stmts := [some (.exprStmt default (some (.call default (some (.select default
    (some (.typeName default (some ⟨2⟩))) "register" (some (.method ⟨0⟩)))) [some e])))]

/-- The captured variable `x`. -/
def captured : Expr := .ident ⟨25, 26⟩ "x" (some (.var ⟨0⟩))

/-- The instance `A.this` around the anonymous class. -/
def surrounding : Expr := .select ⟨25, 26⟩ (some (.typeName default (some ⟨1⟩))) "this" none

/-- The method `void m() { R.register(e); }`. -/
def captureMethod (e : Expr) : MethodDecl where
  id := ⟨3⟩
  span := default
  sym := some ⟨2⟩
  annotations := []
  params := []
  body := some (registerBlock e)

/-- The body of the anonymous class, with the method. -/
def captureBody (e : Expr) : ClassDecl where
  id := ⟨2⟩
  span := default
  sym := some ⟨3⟩
  annotations := []
  members := [.method (captureMethod e)]

/-- The creation of an instance of the anonymous class. -/
def createWith (d : ClassDecl) : Expr := .new ⟨20, 30⟩ none (some ⟨3⟩) none [] (some d)

/-- The declaration `A x = this;`. -/
def declareCaptured : Stmt := .varDecl ⟨default, some ⟨0⟩, [], some (.ident default "this" none)⟩

/-- The constructor `public A() { A x = this; new Object() { .. }; }`. -/
def captureConstructor (d : ClassDecl) : MethodDecl where
  id := ⟨1⟩
  span := default
  sym := some ⟨1⟩
  annotations := []
  params := []
  body := some ⟨default, false,
    [some declareCaptured, some (.exprStmt default (some (createWith d)))]⟩

/-- The class `A`. -/
def captureClass (d : ClassDecl) : ClassDecl where
  id := ⟨0⟩
  span := default
  sym := some ⟨1⟩
  annotations := []
  members := [.method (captureConstructor d)]

/-- The unit with the class `A`. -/
def captureUnit (d : ClassDecl) : CompilationUnit where
  span := default
  name := "A.java"
  package := some ⟨0⟩
  module := none
  classes := [captureClass d]

/-- The catalog of the unit. -/
def captureCatalog (d : ClassDecl) : Catalog where
  entries := (⟨1⟩, ⟨captureClass d, captureConstructor d, true, true⟩) ::
    d.methods.map fun md => (⟨2⟩, ⟨d, md, false, true⟩)
  nonPublic := [⟨3⟩]
  analyzable := [captureClass d]

/-- The surroundings of a session. -/
def captureEnv (d : ClassDecl) : Env := { table := captureTable, catalog := captureCatalog d }

/-- The state after the declaration of `x`. -/
def captureState : State where
  refs := .ofList [.start (some ⟨1⟩), (Ref.start (some ⟨1⟩)).asVar ⟨0⟩]
  methodClass := some ⟨1⟩
  targetClass := some ⟨1⟩

/-- The state after the creation, with the leak that it has recorded. -/
def createdState (leak : Option Trail) : State :=
  { captureState with
    refs := captureState.refs.insertAll [⟨.expr 0, some ⟨3⟩, .ofList [Indirection.outer]⟩]
    pending := leak }

theorem onlyMethod_captureBody (e : Expr) :
    (captureBody e).OnlyMethod captureTable (captureMethod e) (registerBlock e) :=
  ⟨rfl, rfl, rfl, rfl, rfl⟩

theorem below_createWith (d : ClassDecl) :
    (Node.file (captureUnit d)).Below (.expr (createWith d)) := by
  have hmethod : (Node.file (captureUnit d)).Below (.method (captureConstructor d)) :=
    .tail (.single List.mem_cons_self) (method_mem_children List.mem_cons_self)
  have hblock : (Node.file (captureUnit d)).Below (.ofBlock ⟨default, false,
      [some declareCaptured, some (.exprStmt default (some (createWith d)))]⟩) :=
    .tail hmethod (by simp [Node.children, captureConstructor])
  have hstmt : (Node.file (captureUnit d)).Below
      (.stmt (.exprStmt default (some (createWith d)))) :=
    .tail hblock (by simp [Node.children, Node.stmtChildren])
  exact .tail hstmt (by simp [Node.children, Node.stmtChildren])

/-- The node may read a variable. -/
def readsSome : Node → Bool
  | .expr (.ident _ _ (some (.var _))) => true
  | .expr (.new _ _ _ _ _ (some _)) => true
  | _ => false

/-- A block without names of variables and without anonymous classes reads no variable. -/
theorem neverReads_of_allWithin {n : Node} {k : Nat} (h : allWithin (!readsSome ·) k n = true)
    (v : VarId) : n.NeverReads v := by
  intro c hc hreads
  have hnone : readsSome c = false := by
    rcases Relation.reflTransGen_iff_eq_or_transGen.mp hc with rfl | hc
    · simpa using (of_allWithin h).1
    · simpa using (of_allWithin h).2 c hc
  unfold Node.ReadsHere at hreads
  split at hreads
  · cases hnone
  · cases hnone
  · exact hreads

/-- The block `{ R.register(A.this); }` records its leak in either place, although there is a local
variable that holds the instance. -/
theorem initializer_finds_surrounding : ∃ k s,
    exec (captureEnv (captureBody surrounding)) k (.expr (createWith
      ((captureBody surrounding).withInitializer (registerBlock surrounding)))) captureState =
        .ok () s ∧
    s.refs = (createdState (some [25, 20])).refs ∧ s.pending = some [25, 20] :=
  initializer_finds_leak captureTable (captureUnit (captureBody surrounding)) { enabled := true }
    (captureCatalog (captureBody surrounding)) (by cbv) (by decide +kernel) false .running
    .byIdentity _ _ _ _ _ _ (captureMethod surrounding) (registerBlock surrounding)
    (below_createWith _) (onlyMethod_captureBody surrounding) 20 captureState
    (createdState (some [25, 20])) (by decide +kernel) (not_leftOut_of_log_eq rfl)
    (not_leftOut_of_log_eq rfl) fun _ _ v _ =>
    neverReads_of_allWithin (k := 6) (by decide +kernel) v

/-- The block `{ R.register(x); }` records a leak as the body of a method of an anonymous class and
none as an initializer of the class, so that the session over the constructor finds none. -/
theorem initializer_misses_captured :
    let d := captureBody captured
    let d' := d.withInitializer (registerBlock captured)
    (Catalog.build captureTable (captureUnit d) { enabled := true } = .ok (captureCatalog d) ∧
      (Node.file (captureUnit d)).declIds.Nodup ∧
      (Node.file (captureUnit d)).Below (.expr (createWith d)) ∧
      d.OnlyMethod captureTable (captureMethod captured) (registerBlock captured)) ∧
    (exec (captureEnv d) 5 (.stmt declareCaptured) (.start (some ⟨1⟩)) = .ok () captureState ∧
      exec (captureEnv d) 20 (.expr (createWith d)) captureState =
        .ok () (createdState (some [25, 20])) ∧
      exec (captureEnv d) 20 (.expr (createWith d')) captureState = .ok () (createdState none) ∧
      ∀ n s, exec (captureEnv d) n (.expr (createWith d')) captureState = .ok () s →
        s.pending = none) ∧
    Catalog.build captureTable (captureUnit d') { enabled := true } = .ok (captureCatalog d') ∧
    (constructor (captureEnv d) 20 (captureClass d) (captureConstructor d)).trails = [[25, 20]] ∧
    (constructor (captureEnv d') 20 (captureClass d') (captureConstructor d')).stop = none ∧
    (constructor (captureEnv d') 20 (captureClass d') (captureConstructor d')).trails = [] := by
  have hmissed : exec (captureEnv (captureBody captured)) 20 (.expr (createWith
      ((captureBody captured).withInitializer (registerBlock captured)))) captureState =
      .ok () (createdState none) := by decide +kernel
  refine ⟨⟨by cbv, by decide +kernel, below_createWith _, onlyMethod_captureBody captured⟩,
    ⟨rfl, by decide +kernel, hmissed, fun n s hrun => ?_⟩, by cbv, by decide +kernel,
    by decide +kernel, by decide +kernel⟩
  rw [exec_unique hrun hmissed]
  rfl

end EarlyEscape.Analysis
