import EarlyEscape.Interp.Scope

/-!
# Calls

How the interpreter treats a call.  A method whose body no override can replace is simulated:
arguments become its parameters, and what it returns becomes the result of the call.  Every other
call hands its receiver and arguments to unknown code, which is a leak if they lead to the instance.

Expressions and statements inside are interpreted by a parameter `walk`, which stands for the whole
interpreter.

## Main definitions

* `Interp.Task`, `Interp.Walk` : a piece of a program, and an interpreter of such pieces.
* `Interp.invoke` : a call of a method with given receivers.
* `Interp.invokeKnown`, `Interp.invokeUnknown` : the two ways to treat it.
* `Interp.anonymous` : the creation of an instance of an anonymous class.
-/

namespace EarlyEscape.Interp

/-- A piece of a program to be interpreted. -/
inductive Task where
  | expr (e : Expr)
  /-- An expression whose value is dropped. -/
  | drop (e : Expr)
  | stmt (s : Stmt)
  /-- The passes of a loop, after its initialization. -/
  | loop (s : Stmt)

/-- An interpreter of pieces of a program. -/
abbrev Walk := Task → Interp Unit

/-! ### Parts that may be absent -/

/-- Interprets an expression; its result stays. -/
def eval (walk : Walk) : Option Expr → Interp Unit
  | none => pure ()
  | some e => walk (.expr e)

/-- Interprets an expression and takes the result. -/
def value (env : Env) (walk : Walk) (e : Option Expr) : Interp (List Ref) := do
  eval walk e
  takeResult env

/-- Interprets an expression and drops the result. -/
def evalDrop (walk : Walk) : Option Expr → Interp Unit
  | none => pure ()
  | some e => walk (.drop e)

/-- Interprets a statement. -/
def runStmt (walk : Walk) : Option Stmt → Interp Unit
  | none => pure ()
  | some s => walk (.stmt s)

/-- Interprets the statements of a block in their own scope. -/
def runBlock (walk : Walk) : Option Block → Interp Unit
  | none => pure ()
  | some b => inScope dropResult (b.stmts.forM (runStmt walk))

/-- Interprets a member of a class as a statement. -/
def runMember (walk : Walk) : Member → Interp Unit
  | .field d => walk (.stmt (.varDecl d))
  | .initializer b => walk (.stmt (.block b))
  | _ => pure ()

/-- Interprets the code of a class that runs for every new instance. -/
def runInitializers (env : Env) (walk : Walk) (d : ClassDecl) : Interp Unit :=
  (d.initializers env.table).forM (runMember walk)

/-! ### Sites -/

/-- The place of a call. -/
structure Site where
  pos : Option Pos
  /-- Whether the call creates an instance. -/
  isCreation : Bool

/-- The place of a call that an expression, if it is there, makes. -/
def Site.ofExpr? (e : Option Expr) : Site where
  pos := e.map Expr.pos
  isCreation :=
    match e with
    | some (.new ..) => true
    | _ => false

/-! ### Known methods -/

/-- Whether a statement calls another constructor of the same class. -/
def isThisCall : Option Stmt → Bool
  | some (.exprStmt _ (some (.call _ callee _))) => nameOf callee == "this"
  | _ => false

/-- Interprets arguments in order and gives the references `seed` together with the values of the
arguments as values of the parameters.  Arguments without parameter are dropped. -/
def bindArgs (env : Env) (walk : Walk) :
    List (Option Expr) → List VarDecl → RefSet → Interp RefSet
  | [], _, seed => pure seed
  | a :: args, [], seed => do
    evalDrop walk a
    bindArgs env walk args [] seed
  | a :: args, p :: params, seed =>
    match p.sym with
    | none => do
      evalDrop walk a
      bindArgs env walk args params seed
    | some v => do
      let rs ← value env walk a
      bindArgs env walk args params (seed.insertAll (rs.map (·.asVar v)))

/-- The code of a method as it runs in a call.  A constructor that does not start with a call of
another one runs the initializers of its class first, and it returns its receiver. -/
def runMethod (env : Env) (walk : Walk) (entry : Catalog.Entry) (body : Block) : Interp Unit := do
  let ctor := entry.decl.isConstructor env.table
  if ctor && !isThisCall body.stmts.head?.join then runInitializers env walk entry.cls
  runBlock walk (some body)
  if ctor then
    let rs ← takeAll env .this
    add (rs.map (·.asReturned))

/-- Simulates the call of a method.  Without any reference to pass on there is nothing to see. -/
def invokeKnown (env : Env) (walk : Walk) (site : Site) (args : List (Option Expr))
    (receiver : List Ref) (entry : Catalog.Entry) (body : Block) : Interp Unit := do
  let seed ← bindArgs env walk args entry.decl.params (.ofList receiver)
  if seed.isEmpty then pure ()
  else
    let returned ← enter env site.pos entry.decl.id entry.cls.sym seed
      (runMethod env walk entry body)
    push returned

/-! ### Unknown methods -/

/-- Interprets an argument and hands it to unknown code. -/
def passUnknown (env : Env) (walk : Walk) (arg : Option Expr) : Interp Unit := do
  let rs ← value env walk arg
  if rs.any (triggersLeak env) then leakAt (arg.map Expr.pos)

/-- Hands receiver and arguments to unknown code.  A new instance may hold its receiver. -/
def invokeUnknown (env : Env) (walk : Walk) (site : Site) (args : List (Option Expr))
    (receiver : List Ref) : Interp Unit := do
  if receiver.any (triggersLeak env) then leakAt site.pos
  args.forM (passUnknown env walk)
  if site.isCreation then push (receiver.filterMap Ref.toIndirect)

/-! ### Resolution -/

/-- Whether a call of a method is harmless whatever its receiver and arguments: warnings are
suppressed for it, it is a final method of the root class, or it is native. -/
def isExempt (env : Env) (m : MethodId) : Bool :=
  env.catalog.isSuppressed (.method m) || env.table.isObjectFinal m || (env.table.method m).isNative

/-- The entry a call is resolved to: that of the named method or, when there is exactly one
receiver, of a method of its type that overrides it. -/
def resolve? (env : Env) (m : Option MethodId) (receiver : List Ref) :
    Except Catalog.Untold (Option Catalog.Entry) :=
  match env.catalog.lookup? m with
  | some e => .ok (some e)
  | none =>
    match receiver with
    | [r] => env.catalog.overrider? env.table m r.type
    | _ => .ok none

/-- A call of a method with given receivers. -/
def invoke (env : Env) (walk : Walk) (site : Site) (m : Option MethodId)
    (args : List (Option Expr)) (receiver : List Ref) : Interp Unit :=
  if m.any (isExempt env) then pure ()
  else
    match resolve? env m receiver with
    | .error _ => throw .missing
    | .ok none => invokeUnknown env walk site args receiver
    | .ok (some entry) =>
      match entry.invokable, entry.decl.body with
      | true, some body => invokeKnown env walk site args receiver entry body
      | _, _ => invokeUnknown env walk site args receiver

/-! ### Creation of instances -/

/-- The references to a new instance of the class `c` with an implicit outer instance: the receiver
of the running code, or its outer instance. -/
def outerReceiver (env : Env) (c : ClassId) : Interp (List Ref) := do
  let s ← get
  let outer := env.table.enclosing? c
  let outerOf (r : Ref) : Option Ref :=
    if env.table.isSubclass s.methodClass outer then some r
    else if env.table.isEnclosedBy s.methodClass outer then r.fromOuter outer
    else none
  return (← receivers env).filterMap fun r => (outerOf r).bind (·.toOuter (some c))

/-- Interprets a method of an anonymous class as code that runs at a later time and sees the new
instance and the captured variables. -/
def runLater (env : Env) (walk : Walk) (site : Site) (cls : Option ClassId) (seed : RefSet)
    (d : MethodDecl) : Interp Unit :=
  match d.body with
  | none => pure ()
  | some body =>
    if d.isConstructor env.table || (Member.method d).isStatic env.table || seed.isEmpty then
      pure ()
    else discard (enter env site.pos d.id cls seed (runBlock walk (some body)))

/-- The creation of an instance of an anonymous class: the constructor of the superclass, then the
initializers of the class, then its methods.  The result is the new instance. -/
def anonymous (env : Env) (walk : Walk) (site : Site) (cls : Option ClassId)
    (ctor : Option MethodId) (args : List (Option Expr)) (body : ClassDecl) (receiver : List Ref) :
    Interp Unit := do
  let cls := body.sym.or cls
  let receiver := receiver.map (·.withType cls)
  invoke env walk site ctor args receiver
  dropResult
  let seed := RefSet.ofList receiver
  unless seed.isEmpty do
    discard (enter env site.pos body.id cls seed (runInitializers env walk body))
  let captured ← find env .var fun _ => true
  body.methods.forM (runLater env walk site cls (seed.insertAll captured))
  push receiver

/-- The creation of an instance. -/
def create (env : Env) (walk : Walk) (site : Site) (outer : Option Expr) (cls : Option ClassId)
    (ctor : Option MethodId) (args : List (Option Expr)) (body : Option ClassDecl) :
    Interp Unit := do
  let receiver ←
    match outer with
    | some e => do
      let rs ← value env walk (some e)
      pure ((rs.filterMap (·.toOuter cls)).map (·.asThis))
    | none =>
      match cls with
      | some c => if (env.table.cls c).hasOuter then outerReceiver env c else pure []
      | none => pure []
  match body with
  | some d => anonymous env walk site cls ctor args d receiver
  | none => invoke env walk site ctor args receiver

end EarlyEscape.Interp
