import EarlyEscape.Catalog.Build
import EarlyEscape.Config
import EarlyEscape.Diagnostic
import EarlyEscape.Interp.Exec

/-!
# The analysis of a compilation unit

A *session* interprets the statements of one constructor or initializer from the state in which the
instance is known to its receiver alone, and ends at the first statement that leaks.  The analysis
of a unit builds the catalog, runs the sessions of all classes that outside code may extend, and
reports the collapsed trails.  An error of the analysis itself replaces all other reports.

## Main definitions

* `Analysis.Outcome` : the trails and log entries of sessions, and why they ended early.
* `Analysis.session`, `Analysis.initializers`, `Analysis.constructor`, `Analysis.analyzeClass`.
* `Analysis.run` : the analysis of a unit.

All of them have a form whose name ends in `By`, in which the interpreter is a parameter.
-/

namespace EarlyEscape

namespace Analysis

open Interp (Env State Stop)

/-- What sessions contribute: trails, log entries, and the reason that ended them early. -/
structure Outcome where
  trails : List Trail := []
  log : List LogRecord := []
  stop : Option Stop := none
deriving DecidableEq

namespace Outcome

/-- Sessions one after the other; after one that ended early no other takes place. -/
def andThen (a b : Outcome) : Outcome :=
  match a.stop with
  | some _ => a
  | none => ⟨a.trails ++ b.trails, a.log ++ b.log, b.stop⟩

/-- Any number of sessions one after the other. -/
def all (os : List Outcome) : Outcome := os.foldl andThen {}

end Outcome

/-! ### Sessions -/

/-- Interprets statements in order up to the first one that leaks. -/
def runUntilLeak (walk : Interp.Walk) : List (Option Stmt) → Interp Unit
  | [] => pure ()
  | s :: stmts => do
    Interp.runStmt walk s
    if (← get).pending.isSome then pure () else runUntilLeak walk stmts

/-- A session over statements of a class, which needs a name to tell of a leak. -/
def sessionBy (t : SymbolTable) (walk : Interp.Walk) (cls : Option ClassId)
    (stmts : List (Option Stmt)) : Outcome :=
  match (runUntilLeak walk stmts).run (.start cls) with
  | .error e s => { log := s.log, stop := some e }
  | .ok _ s =>
    match s.pending, t.classText? cls with
    | none, _ => { log := s.log }
    | some _, none => { log := s.log, stop := some .missing }
    | some trail, some name =>
      { trails := [trail], log := s.log ++ [.possibleEscape name trail.length] }

/-- A session of the interpreter with a bound on its steps. -/
def session (env : Env) (fuel : Nat) (cls : Option ClassId) (stmts : List (Option Stmt)) :
    Outcome :=
  sessionBy env.table (Interp.exec env fuel) cls stmts

/-- The statements of a session over an initializer; a field with warnings suppressed has no
session. -/
def initializerStmts (env : Env) : Member → Option (List (Option Stmt))
  | .initializer b => some b.stmts
  | .field d =>
    if d.sym.any fun v => env.catalog.isSuppressed (.var v) then none
    else some [some (.varDecl d)]
  | _ => none

/-- The sessions over the initializers of a class. -/
def initializersBy (env : Env) (walk : Interp.Walk) (d : ClassDecl) : Outcome :=
  .all (((d.initializers env.table).filterMap (initializerStmts env)).map
    (sessionBy env.table walk d.sym))

/-- The sessions over the initializers of a class, with a bound on the steps. -/
def initializers (env : Env) (fuel : Nat) (d : ClassDecl) : Outcome :=
  initializersBy env (Interp.exec env fuel) d

/-- The session over a constructor of a class. -/
def constructorBy (env : Env) (walk : Interp.Walk) (d : ClassDecl) (ctor : MethodDecl) : Outcome :=
  match ctor.body with
  | none => {}
  | some b => sessionBy env.table walk d.sym b.stmts

/-- The session over a constructor of a class, with a bound on the steps. -/
def constructor (env : Env) (fuel : Nat) (d : ClassDecl) (ctor : MethodDecl) : Outcome :=
  constructorBy env (Interp.exec env fuel) d ctor

/-- The constructors of a class that the analysis starts from. -/
def analyzableConstructors (env : Env) (d : ClassDecl) : List MethodDecl :=
  (d.constructors env.table).filter fun m => (env.catalog.lookup? m.sym).any (·.analyzable)

/-- The sessions of a class, which needs a name. -/
def analyzeClassBy (env : Env) (walk : Interp.Walk) (config : Config) (d : ClassDecl) : Outcome :=
  match env.table.classText? d.sym with
  | none => { stop := some .missing }
  | some name =>
    let ctors := analyzableConstructors env d
    let first := if config.initializers then initializersBy env walk d else {}
    (first.andThen (.all (ctors.map (constructorBy env walk d)))).andThen
      { log := [.analyzedClass name ctors.length] }

/-- The sessions of a class, with a bound on the steps. -/
def analyzeClass (env : Env) (fuel : Nat) (config : Config) (d : ClassDecl) : Outcome :=
  analyzeClassBy env (Interp.exec env fuel) config d

/-! ### The report -/

/-- Why the analysis of a unit fails. -/
inductive Failure where
  | noUnit
  | noReporter
  /-- An error of the analysis in a class. -/
  | internal (cls : String) (e : InternalError)
deriving DecidableEq, Repr

/-- The text of a failure. -/
def Failure.message : Failure → String
  | noUnit => "thisescape: no compilation unit"
  | noReporter => "thisescape: no reporter"
  | internal cls e => "thisescape: class " ++ cls ++ ": " ++ e.fault.message

/-- What the analysis of a unit reports. -/
structure Report where
  diagnostics : List Diagnostic := []
  log : List LogRecord := []
  failure : Option Failure := none

/-- Why the analysis of a unit gives no report at all. -/
inductive Abort where
  /-- The catalog cannot be built. -/
  | unknownNode (u : UnknownNode)
  /-- A step needs a node, a class or the name of a class that is not there. -/
  | missing
  /-- The bound on the number of steps is used up. -/
  | exhausted
deriving DecidableEq, Repr

/-- The report of an error of the analysis in the class declared by `d`, at the position of the
error or, if it has none, at the declaration. -/
def internalReport (t : SymbolTable) (d : ClassDecl) (e : InternalError) (log : List LogRecord) :
    Report :=
  let cls := t.classText d.sym
  let span := if e.pos = 0 then d.span else ⟨e.pos, e.pos⟩
  { diagnostics := [.internalError span (e.fault.message ++ " in class " ++ cls)]
    log
    failure := some (.internal cls e) }

/-- The report of the leaks of a unit. -/
def leakReport (file : String) (classes : Nat) (trails : List Trail) (log : List LogRecord) :
    Report :=
  let diagnostics := Diagnostic.ofTrails trails
  { diagnostics, log := log ++ [.analyzedUnit file classes diagnostics.length] }

/-- Analyses classes in order, after what earlier ones have contributed. -/
def runClassesBy (env : Env) (walk : Interp.Walk) (config : Config) (file : String) (count : Nat) :
    List ClassDecl → List Trail → List LogRecord → Except Abort Report
  | [], trails, log => .ok (leakReport file count trails log)
  | d :: classes, trails, log =>
    let o := analyzeClassBy env walk config d
    match o.stop with
    | none => runClassesBy env walk config file count classes (trails ++ o.trails) (log ++ o.log)
    | some (.internal e) => .ok (internalReport env.table d e (log ++ o.log))
    | some .missing => .error .missing
    | some .exhausted => .error .exhausted

/-- The analysis of a compilation unit by the interpreter that `walk` gives for its surroundings. -/
def runUnitBy (t : SymbolTable) (walk : Env → Interp.Walk) (config : Config) (u : CompilationUnit) :
    Except Abort Report :=
  match Catalog.build t u { enabled := config.enabled } with
  | .error (.unknownNode e) => .error (.unknownNode e)
  | .error (.untold _) => .error .missing
  | .ok catalog =>
    let env : Env := { table := t, catalog, checked := config.invariants }
    runClassesBy env (walk env) config u.name catalog.analyzable.length catalog.analyzable [] []

/-- The analysis of a compilation unit, if there is one and somebody to report to.  A log is only
kept if the configuration asks for it. -/
def runBy (t : SymbolTable) (walk : Env → Interp.Walk) (config : Config)
    (unit : Option CompilationUnit) (hasReporter : Bool) : Except Abort Report :=
  match unit with
  | none => .ok { failure := some .noUnit }
  | some u =>
    if hasReporter then
      (runUnitBy t walk config u).map fun r => if config.logging then r else { r with log := [] }
    else .ok { failure := some .noReporter }

/-- The analysis of a compilation unit with a bound on the steps of each session, in which tied
references follow the order `ties`. -/
def run (t : SymbolTable) (ties : TieOrder) (fuel : Nat) (config : Config)
    (unit : Option CompilationUnit) (hasReporter : Bool) : Except Abort Report :=
  runBy t (fun env => Interp.exec { env with ties } fuel) config unit hasReporter

/-- A bound on the steps of a session that no program of practical size reaches. -/
def stepBound : Nat := 1000000000000000

end Analysis

end EarlyEscape
