import EarlyEscape.Interp.State
import EarlyEscape.Syntax.Access

/-!
# Values, scopes and calls of the interpreter

The result of an expression is held, until it is used, by references in the role `expr` at the
current scope depth.  This file has the steps that handle results, that open a scope, repeat a body
until nothing changes, run a body as a simulated call or as code that runs at a later time.

## Main definitions

* `Interp.push`, `Interp.takeResult`, `Interp.dropResult`, `Interp.relabelResult` : results.
* `Interp.leakAt` : records a leak.
* `Interp.inScope`, `Interp.looped` : scopes and loops.
* `Interp.enter` : a simulated call.
* `Interp.deferred` : code that may run at any later time.
-/

namespace EarlyEscape.Interp

/-! ### Results -/

/-- Adds references as the result of the current expression. -/
def push (rs : List Ref) : Interp Unit :=
  modify fun s => { s with refs := s.refs.insertAll (rs.map (·.asExpr s.depth)) }

/-- Ends the interpretation if the references have no order. -/
def requireOrder (env : Env) : Interp Unit := do
  unless (← get).refs.isListable env.table do throw .missing

/-- Removes the current result and gives its references, in order. -/
def takeResult (env : Env) : Interp (List Ref) := do
  requireOrder env
  modifyGet fun s =>
    let (rs, refs) := s.refs.extractExprs env.table env.ties s.depth
    (rs, { s with refs })

/-- Removes the current result. -/
def dropResult : Interp Unit :=
  modify fun s => { s with refs := s.refs.discardExprs s.depth }

/-- Replaces every reference of the current result by its image, one after the other. -/
def relabelResult (env : Env) (f : Ref → Ref) : Interp Unit := do
  requireOrder env
  modify fun s => { s with refs := s.refs.replaceExprs s.depth fun r => some (f r) }

/-- The references of one sort that satisfy a predicate, in order. -/
def find (env : Env) (k : Ref.Kind) (p : Ref → Bool) : Interp (List Ref) := do
  requireOrder env
  return (← get).refs.find env.table env.ties k p

/-- The references to the receiver, in order. -/
def receivers (env : Env) : Interp (List Ref) := find env .this fun _ => true

/-- Removes the references of one sort and gives them, in order. -/
def takeAll (env : Env) (k : Ref.Kind) : Interp (List Ref) := do
  requireOrder env
  modifyGet fun s =>
    let (rs, refs) := s.refs.extract env.table env.ties k fun _ => true
    (rs, { s with refs })

/-- Adds references as they are. -/
def add (rs : List Ref) : Interp Unit := modify fun s => { s with refs := s.refs.insertAll rs }

/-! ### Leaks -/

/-- Whether unknown code that gets a reference may use the instance.  The only exception is a
reference to a value that has the instance as its outer instance and whose class no outside code
can name. -/
def triggersLeak (env : Env) (r : Ref) : Bool :=
  !r.ind.isOnly Indirection.outer || !env.catalog.isNonPublic r.type

/-- Records a leak at a position, unless there is one already. -/
def leakAt (pos : Option Pos) : Interp Unit := do
  let s ← get
  match s.pending with
  | some _ => pure ()
  | none =>
    match pos with
    | none => throw .missing
    | some p => set { s with pending := some (p :: s.callStack) }

/-! ### Scopes -/

/-- Moves the current result to the scope outside. -/
def promoteResult (env : Env) : Interp Unit := do
  requireOrder env
  modify fun s =>
    { s with refs := s.refs.replaceExprs s.depth fun r => some (r.asExpr (s.depth - 1)) }

/-- Runs a body one scope deeper; `leave` says what becomes of the result left in the inner
scope. -/
def inScope (leave body : Interp Unit) : Interp Unit := do
  modify fun s => { s with depth := s.depth + 1 }
  body
  leave
  modify fun s => { s with depth := s.depth - 1 }

/-- Runs a body until a pass leaves the set of references as it was. -/
def repeated (body : Interp Unit) : Nat → Interp Unit
  | 0 => throw .exhausted
  | n + 1 => do
    let before := (← get).refs
    body
    let after := (← get).refs
    if after.sameAs before then pure () else repeated body n

/-- Runs the body of a loop, in its own scope, until nothing changes. -/
def looped (passes : Nat) (body : Interp Unit) : Interp Unit :=
  inScope dropResult (repeated body passes)

/-- Reports the results of expressions at the current depth or deeper that are left over after a
statement. -/
def checkLeftovers (env : Env) (s : Stmt) : Interp Unit := do
  if env.checked then
    requireOrder env
    let st ← get
    let lasts (r : Ref) : Bool := r.kind == .expr && decide (st.depth ≤ r.depth)
    match (st.refs.sorted env.table env.ties).find? lasts with
    | none => pure ()
    | some r => fail s.pos (.survivor (r.text env.table) (Node.stmt s).sortText st.depth)

/-! ### Calls and deferred code -/

/-- Whether a call is not to be entered. -/
def isCut (env : Env) (s : State) (decl : DeclId) (seed : RefSet) : Bool :=
  match env.guard with
  | .running => s.running.any fun (d, refs) => d == decl && seed.sameAs refs
  | .nesting limit => decide (limit ≤ s.running.length)

/-- Runs a body as the code of a declaration in a class, called at a position and seeing only the
references `seed`.  It gives the references to the returned value; all else is as before the call.
A call that is cut returns nothing. -/
def enter (env : Env) (site : Option Pos) (decl : DeclId) (cls : Option ClassId) (seed : RefSet)
    (body : Interp Unit) : Interp (List Ref) := do
  let caller ← get
  if isCut env caller decl seed then
    note (.skippedCall decl seed (seed.text env.table env.ties))
    return []
  else
    match site with
    | none => throw .missing
    | some pos =>
      -- what the callee does depends on the references alone, not on the order they came in
      let seed := seed.canonical
      set { caller with
        refs := seed, depth := 0, methodClass := cls, callStack := pos :: caller.callStack
        running := (decl, seed) :: caller.running, saved := caller.refs :: caller.saved }
      body
      requireOrder env
      let callee ← get
      set { callee with
        refs := caller.refs, depth := caller.depth, methodClass := caller.methodClass
        callStack := caller.callStack, running := caller.running, saved := caller.saved }
      return callee.refs.find env.table env.ties .returned fun _ => true

/-- Whether a reference holds a value that code leaves behind: a result at the given depth or
deeper, or a returned value. -/
def isLeftBehind (depth : Int) (r : Ref) : Bool :=
  match r.role with
  | .expr d => decide (depth ≤ d)
  | .returned => true
  | _ => false

/-- Runs code that may run at any later time.  Its leaks count, its effects on the references do
not; but if it leaves behind a value that was not there before, its closure of the given type may
contain the instance. -/
def deferred (env : Env) (type : Option ClassId) (code : Interp Unit) : Interp Unit := do
  let start ← get
  let before := start.refs
  set { start with saved := before :: start.saved }
  code
  requireOrder env
  modify fun s =>
    let captures := s.refs.toList.any fun r => isLeftBehind s.depth r && decide (r ∉ before)
    { s with
      refs := if captures then before.insert ⟨.expr s.depth, type, .indirect⟩ else before
      saved := start.saved }

end EarlyEscape.Interp
