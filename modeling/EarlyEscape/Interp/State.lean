import EarlyEscape.Catalog.Basic
import EarlyEscape.Ref.Set
import EarlyEscape.Trail

/-!
# The state of the interpreter

The interpreter runs a piece of a program on a set of references instead of values.  Its state is
that set together with the place of the running code; its fixed surroundings are the symbols, the
catalog and three settings.

## Main definitions

* `Interp.State`, `Interp.Env` : the state and the surroundings.
* `Interp.Stop` : why an interpretation ends early.
* `Interp` : a step of the interpreter; a step that ends early keeps the state it had reached.
* `LogRecord` : an entry of the log.
-/

namespace EarlyEscape

/-! ### The log -/

/-- An entry of the log of an analysis. -/
inductive LogRecord where
  /-- A call of a declaration with these references, shown as a text, was not entered, usually
  because it is already running with the same references. -/
  | skippedCall (decl : DeclId) (seed : RefSet) (state : String)
  /-- A leak was found for a class; the trail has so many positions. -/
  | possibleEscape (cls : String) (frames : Nat)
  /-- A class is done; the analysis started from so many constructors. -/
  | analyzedClass (cls : String) (constructors : Nat)
  /-- A compilation unit is done. -/
  | analyzedUnit (file : String) (classes warnings : Nat)
deriving DecidableEq, Repr

namespace LogRecord

/-- The level that all entries have. -/
def level : String := "DEBUG"

/-- The message of an entry. -/
def message : LogRecord → String
  | skippedCall .. => "Skipping recursive invocation"
  | possibleEscape .. => "Possible this escape"
  | analyzedClass .. => "Analyzed class"
  | analyzedUnit .. => "Analyzed compilation unit"

/-- The attributes of an entry: names and values. -/
def attributes : LogRecord → List (String × String)
  | skippedCall _ _ state => [("state", state)]
  | possibleEscape cls frames => [("class", cls), ("frames", toString frames)]
  | analyzedClass cls constructors => [("class", cls), ("constructors", toString constructors)]
  | analyzedUnit file classes warnings =>
    [("unit", file), ("classes", toString classes), ("warnings", toString warnings)]

end LogRecord

/-! ### Ways to end early -/

/-- What is wrong when the analysis reports an error of its own. -/
inductive Fault where
  /-- The result of an expression is left over after a statement. -/
  | survivor (ref sort : String) (depth : Int)
  /-- A statement of an unknown sort. -/
  | unknownStmt (sort : String)
  /-- An expression of an unknown sort. -/
  | unknownExpr (sort : String)
deriving DecidableEq, Repr

/-- The text of a fault. -/
def Fault.message : Fault → String
  | survivor ref sort depth =>
    "invariant violated: " ++ ref ++ " survives " ++ sort ++ " at depth " ++ toString depth
  | unknownStmt sort => "unexpected node: statement " ++ sort
  | unknownExpr sort => "unexpected node: expression " ++ sort

/-- An error of the analysis itself, with its position. -/
structure InternalError where
  pos : Pos
  fault : Fault
deriving DecidableEq, Repr

namespace Interp

/-- Why an interpretation ends early. -/
inductive Stop where
  /-- The analysis reports an error of its own. -/
  | internal (e : InternalError)
  /-- A step needs a node, a class or the name of a class that is not there. -/
  | missing
  /-- The bound on the number of steps is used up. -/
  | exhausted
deriving DecidableEq, Repr

/-! ### State and surroundings -/

/-- When a simulated call is not entered. -/
inductive Guard where
  /-- When the same declaration is already running from the same references. -/
  | running
  /-- When so many calls are already running. -/
  | nesting (limit : Nat)
deriving DecidableEq, Repr

/-- The fixed surroundings of an interpretation. -/
structure Env where
  table : SymbolTable
  catalog : Catalog
  /-- Whether left over results of expressions are an error. -/
  checked : Bool := false
  guard : Guard := .running
  /-- The order of references that the listing order ties. -/
  ties : TieOrder := .byIdentity

/-- The state of an interpretation. -/
structure State where
  /-- The references that the running code can reach. -/
  refs : RefSet
  /-- The scope depth of the running code. -/
  depth : Int := 0
  /-- The class that declares the running code. -/
  methodClass : Option ClassId
  /-- The class of the instance under construction. -/
  targetClass : Option ClassId
  /-- The positions of the calls that are running, innermost first. -/
  callStack : List Pos := []
  /-- The declarations that are running, each with the references it was entered with, innermost
  first. -/
  running : List (DeclId × RefSet) := []
  /-- The references that the code outside goes on with after the running calls and the deferred
  code, innermost first. -/
  saved : List RefSet := []
  /-- The trail of the first leak. -/
  pending : Option Trail := none
  log : List LogRecord := []
deriving DecidableEq

/-- The state at the start of the code of a class. -/
def State.start (cls : Option ClassId) : State :=
  { refs := .ofList [.start cls], methodClass := cls, targetClass := cls }

end Interp

/-- A step of the interpreter. -/
abbrev Interp := EStateM Interp.Stop Interp.State

namespace Interp

deriving instance DecidableEq for EStateM.Result

/-- Ends the interpretation with an error of the analysis at a position. -/
def fail {α : Type} (pos : Pos) (fault : Fault) : Interp α := throw (.internal ⟨pos, fault⟩)

/-- Adds an entry to the log. -/
def note (r : LogRecord) : Interp Unit := modify fun s => { s with log := s.log ++ [r] }

end Interp

end EarlyEscape
