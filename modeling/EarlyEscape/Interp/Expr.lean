import EarlyEscape.Interp.Invoke

/-!
# Expressions

The effect of every sort of expression on the state.  The references to the result are left in the
role `expr` at the current depth.

## Main definitions

* `Interp.ident`, `Interp.select`, `Interp.qualifiedThis` : names.
* `Interp.call`, `Interp.lambda`, `Interp.memberRef`, `Interp.switchValue`.
* `Interp.stepExpr` : one expression, its parts left to a parameter `walk`.
-/

namespace EarlyEscape.Interp

/-! ### Names -/

/-- Makes the receiver the result. -/
def pushThis (env : Env) : Interp Unit := do
  let rs ← receivers env
  push rs

/-- Makes the outer instance of the receiver, of the class `outer`, the result. -/
def pushOuterThis (env : Env) (outer : ClassId) : Interp Unit := do
  let rs ← receivers env
  push (rs.filterMap (·.fromOuter (some outer)))

/-- The implicit receiver of an unqualified call of an instance method of the class `owner`. -/
def implicitReceiver (env : Env) (owner : Option ClassId) : Interp Unit := do
  let s ← get
  if env.table.isSubclass s.methodClass owner then pushThis env
  else
    match owner, env.table.isEnclosedBy s.methodClass owner with
    | some c, true => pushOuterThis env c
    | _, _ =>
      match s.methodClass with
      | none => throw .missing
      | some mc =>
        match env.table.enclosingSubclass? mc owner with
        | none => pure ()
        | some outer => pushOuterThis env outer

/-- Whether a name is one of the two names of the receiver. -/
def isReceiverName (name : String) : Bool := name == "this" || name == "super"

/-- A simple name. -/
def ident (env : Env) (name : String) (sym : Option Symbol) : Interp Unit :=
  if isReceiverName name then pushThis env
  else
    match sym with
    | some (.var v) => do
      let rs ← find env .var fun r => r.var? == some v
      push rs
    | some (.method m) =>
      if (env.table.method m).isStatic || (env.table.method m).isConstructor then pure ()
      else implicitReceiver env (env.table.method m).owner
    | _ => pure ()

/-- The receiver under the name of a class: the receiver itself, or its outer instance. -/
def qualifiedThis (env : Env) (c : Option ClassId) (super : Bool) : Interp Unit := do
  let s ← get
  match c with
  | none => pure ()
  | some c =>
    let enclosed := env.table.isEnclosedBy s.methodClass (some c)
    if s.methodClass == some c || (super && !enclosed) then pushThis env
    else if enclosed then pushOuterThis env c
    else pure ()

/-- The class that a qualified `this` or `super` names. -/
def qualifier? (x : Option Expr) (name : String) : Option (Option ClassId) :=
  if isReceiverName name then
    match unparen? x with
    | some (.typeName _ c) => some c
    | _ => none
  else none

/-- A selection.  Only the receiver of a method is a result; fields are not tracked. -/
def select (env : Env) (walk : Walk) (x : Option Expr) (name : String) (sym : Option Symbol) :
    Interp Unit :=
  match qualifier? x name with
  | some c => qualifiedThis env c (name == "super")
  | none => do
    let rs ← value env walk x
    match sym with
    | some (.method m) => if (env.table.method m).isStatic then pure () else push rs
    | _ => pure ()

/-- The local variable that an expression names. -/
def localVar? (env : Env) (e : Option Expr) : Option VarId :=
  match unparen? e with
  | some (.ident _ _ (some (.var v))) => if (env.table.var v).isLocal then some v else none
  | _ => none

/-! ### Calls -/

/-- Whether a call invokes a constructor of the superclass. -/
def isSuperCall (env : Env) (callee : Option Expr) : Bool :=
  nameOf callee == "super" && (methodOf? callee).all fun m => (env.table.method m).isConstructor

/-- A call.  The constructor of the superclass is analysed with the superclass, so that only the
arguments count. -/
def call (env : Env) (walk : Walk) (site : Site) (callee : Option Expr)
    (args : List (Option Expr)) : Interp Unit :=
  if isSuperCall env callee then args.forM (evalDrop walk)
  else do
    let m := methodOf? callee
    eval walk callee
    if m.any fun m => (env.table.method m).isStatic then
      dropResult
      invoke env walk site m args []
    else
      let rs ← takeResult env
      invoke env walk site m args (rs.map (·.asThis))

/-! ### Functions -/

/-- The body of a function: the value of an expression is returned. -/
def runLambdaBody (env : Env) (walk : Walk) : Option Node → Interp Unit
  | some (.stmt (.block b)) => runBlock walk (some b)
  | some (.expr e) => do
    walk (.expr e)
    relabelResult env Ref.asReturned
  | _ => pure ()

/-- A function. -/
def lambda (env : Env) (walk : Walk) (body : Option Node) (type : Option ClassId) : Interp Unit :=
  deferred env type (inScope dropResult (runLambdaBody env walk body))

/-- The receivers that a method reference captures; references that capture nothing have none. -/
def capturedReceivers (env : Env) (walk : Walk) (x : Option Expr) (sym : Option MethodId) :
    MemberRefKind → Interp (Option (List Ref))
  | .bound => do
    let rs ← value env walk x
    return some (rs.map (·.asThis))
  | .super => do
    evalDrop walk x
    return some (← receivers env)
  | .implicitInner => do
    evalDrop walk x
    match sym with
    | none => return some []
    | some m =>
      match (env.table.method m).owner with
      | none => throw .missing
      | some c => return some (← outerReceiver env c)
  | _ => do
    evalDrop walk x
    return none

/-- A method reference: a call that may take place at any later time. -/
def memberRef (env : Env) (walk : Walk) (site : Site) (x : Option Expr) (sym : Option MethodId)
    (kind : MemberRefKind) (type : Option ClassId) : Interp Unit := do
  match ← capturedReceivers env walk x sym kind with
  | none => pure ()
  | some receiver => deferred env type (invoke env walk site sym [] receiver)

/-! ### Patterns and switches -/

/-- Adds references as values of a pattern variable, with its type. -/
def bind (env : Env) (rs : List Ref) (d : VarDecl) : Interp Unit :=
  match d.sym with
  | none => pure ()
  | some v => add (rs.map fun r => (r.withType (env.table.var v).type).asVar v)

/-- A case of a switch; its pattern variables get the value of the selector. -/
def runCase (env : Env) (walk : Walk) (selector : List Ref) (c : Case) : Interp Unit := do
  c.labels.forM (evalDrop walk)
  c.bindings.forM (bind env selector)
  evalDrop walk c.guard
  c.body.forM (runStmt walk)

/-- Interprets cases in order and gives the references that they yield. -/
def runYieldingCases (env : Env) (walk : Walk) (selector : List Ref) :
    List Case → Interp (List Ref)
  | [] => pure []
  | c :: cases => do
    runCase env walk selector c
    let rs ← takeAll env .yielded
    let rest ← runYieldingCases env walk selector cases
    return rs ++ rest

/-- A switch with a value: what its cases yield. -/
def switchValue (env : Env) (walk : Walk) (selector : Option Expr) (cases : List Case) :
    Interp Unit :=
  inScope (promoteResult env) do
    let rs ← value env walk selector
    let yields ← runYieldingCases env walk rs cases
    push yields

/-- Interprets the elements of a new array and gives the references to the array through them. -/
def runElements (env : Env) (walk : Walk) (type : Option ClassId) :
    List (Option Expr) → Interp (List Ref)
  | [] => pure []
  | e :: es => do
    let rs ← value env walk e
    let rest ← runElements env walk type es
    return (rs.filterMap Ref.toIndirect).map (·.withType type) ++ rest

/-! ### All expressions -/

/-- The effect of one expression. -/
def stepExpr (env : Env) (walk : Walk) (e : Expr) : Interp Unit :=
  match e with
  | .assign _ lhs rhs => do
    evalDrop walk lhs
    match localVar? env lhs with
    | some v => do
      eval walk rhs
      relabelResult env (·.asVar v)
    | none => do
      evalDrop walk rhs
      dropResult
  | .assignOp _ _ lhs rhs => do
    evalDrop walk lhs
    evalDrop walk rhs
  | .binary _ _ x y => do
    evalDrop walk x
    evalDrop walk y
  | .call _ callee args => call env walk (.ofExpr? (some e)) callee args
  | .cast _ type x =>
    match type with
    | none => do
      evalDrop walk x
      dropResult
    | some c => do
      eval walk x
      relabelResult env (·.withType (some c))
  | .conditional _ cond yes no => do
    evalDrop walk cond
    let a ← value env walk yes
    let b ← value env walk no
    push a
    push b
  | .ident _ name sym => ident env name sym
  | .index _ x i elem => do
    let rs ← value env walk x
    evalDrop walk i
    match elem with
    | none => pure ()
    | some c => push (rs.filterMap (·.fromIndirect (some c)))
  | .instanceOf _ x _ binding => do
    let rs ← value env walk x
    match binding with
    | none => pure ()
    | some d => bind env rs d
  | .lambda _ _ body type => lambda env walk body type
  | .literal .. | .typeName .. => pure ()
  | .memberRef _ x _ sym kind type => memberRef env walk (.ofExpr? (some e)) x sym kind type
  | .new _ outer cls ctor args body =>
    create env walk (.ofExpr? (some e)) outer cls ctor args body
  | .newArray _ type dims elems => do
    dims.forM (evalDrop walk)
    let rs ← runElements env walk type elems
    push rs
  | .paren _ x => eval walk x
  | .select _ x name sym => select env walk x name sym
  | .switchExpr _ selector cases => switchValue env walk selector cases
  | .unary _ _ x => evalDrop walk x
  | .unknown span sort => fail span.pos (.unknownExpr sort)

end EarlyEscape.Interp
