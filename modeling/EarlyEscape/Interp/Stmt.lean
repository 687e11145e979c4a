import EarlyEscape.Interp.Expr

/-!
# Statements

The effect of every sort of statement on the state.

## Main definitions

* `Interp.elements` : the values that a for-each loop runs over.
* `Interp.loopPass` : one pass of a loop.
* `Interp.stepStmt` : one statement, its parts left to a parameter `walk`.
-/

namespace EarlyEscape.Interp

/-- The declaration of a variable.  Local variables take the value of the initializer; that of a
field is dropped. -/
def declare (env : Env) (walk : Walk) (d : VarDecl) : Interp Unit :=
  match d.init with
  | none => pure ()
  | some e =>
    match d.sym.filter fun v => (env.table.var v).isLocal with
    | some v => do
      walk (.expr e)
      relabelResult env (·.asVar v)
    | none => walk (.drop e)

/-! ### Iteration -/

/-- The references to elements of the arrays among given references. -/
def arrayElements (env : Env) (rs : List Ref) : List Ref :=
  rs.filterMap fun r =>
    match r.type with
    | some c => if (env.table.cls c).isArray then r.fromIndirect (env.table.cls c).elem else none
    | none => none

/-- The given references that are no arrays, as receivers. -/
def iterables (env : Env) (rs : List Ref) : List Ref :=
  (rs.filter fun r => !r.type.any fun c => (env.table.cls c).isArray).map (·.asThis)

/-- The three methods that iterate over a value of a type. -/
structure Iteration where
  iterator : MethodId
  hasNext : MethodId
  next : MethodId

/-- The methods that iterate over a value of a type, if it has them. -/
def iteration? (t : SymbolTable) (type : Option ClassId) : Option Iteration := do
  let iterator ← t.lookupMethod type "iterator" 0
  let result ← (t.method iterator).result
  let hasNext ← t.lookupMethod (some result) "hasNext" 0
  let next ← t.lookupMethod (some result) "next" 0
  return ⟨iterator, hasNext, next⟩

/-- The values that a loop over the given references runs over.  Those of other values than arrays
are found by simulating the calls of the loop, with the methods of the first one's type. -/
def elements (env : Env) (walk : Walk) (site : Site) (rs : List Ref) : Interp (List Ref) := do
  let elems := arrayElements env rs
  let receivers := iterables env rs
  match receivers.head?.bind fun r => iteration? env.table r.type with
  | none => return elems
  | some it =>
    invoke env walk site (some it.iterator) [] receivers
    let iterators := (← takeResult env).map (·.asThis)
    invoke env walk site (some it.hasNext) [] iterators
    dropResult
    invoke env walk site (some it.next) [] iterators
    return elems ++ (← takeResult env)

/-- One pass of a for-each loop. -/
def forEachPass (env : Env) (walk : Walk) (d : Option VarDecl) (x : Option Expr)
    (body : Option Stmt) : Interp Unit := do
  let rs ← value env walk x
  let elems ← elements env walk (.ofExpr? x) rs
  match d.bind (·.sym) with
  | none => pure ()
  | some v => add (elems.map (·.asVar v))
  runStmt walk body

/-- One pass of a while loop. -/
def whilePass (walk : Walk) (cond : Option Expr) (body : Option Stmt) : Interp Unit := do
  evalDrop walk cond
  runStmt walk body

/-- One pass of a do loop. -/
def doPass (walk : Walk) (body : Option Stmt) (cond : Option Expr) : Interp Unit := do
  runStmt walk body
  evalDrop walk cond

/-- One pass of a for loop. -/
def forPass (walk : Walk) (cond : Option Expr) (post : List (Option Stmt)) (body : Option Stmt) :
    Interp Unit := do
  evalDrop walk cond
  runStmt walk body
  post.forM (runStmt walk)

/-- One pass of a loop; other statements have none. -/
def loopPass (env : Env) (walk : Walk) : Stmt → Interp Unit
  | .whileLoop _ cond body => whilePass walk cond body
  | .doLoop _ body cond => doPass walk body cond
  | .forLoop _ _ cond post body => forPass walk cond post body
  | .forEach _ var x body => forEachPass env walk var x body
  | _ => pure ()

/-! ### All statements -/

/-- The effect of one statement, left over results apart. -/
def stmtEffect (env : Env) (walk : Walk) (s : Stmt) : Interp Unit :=
  match s with
  | .assertStmt _ cond detail => do
    evalDrop walk cond
    evalDrop walk detail
  | .block b => runBlock walk (some b)
  | .branch .. | .empty _ | .classDecl _ => pure ()
  | .doLoop .. | .whileLoop .. | .forEach .. => walk (.loop s)
  | .exprStmt _ x => evalDrop walk x
  | .forLoop _ init _ _ _ =>
    inScope dropResult do
      init.forM (runStmt walk)
      walk (.loop s)
  | .ifElse _ cond yes no => do
    evalDrop walk cond
    runStmt walk yes
    runStmt walk no
  | .labeled _ _ body => runStmt walk body
  | .returnStmt _ result =>
    match result with
    | none => pure ()
    | some e => do
      walk (.expr e)
      relabelResult env Ref.asReturned
  | .switch _ selector cases =>
    inScope dropResult do
      let rs ← value env walk selector
      cases.forM (runCase env walk rs)
  | .synchronized _ lock body => do
    evalDrop walk lock
    runBlock walk body
  | .throwStmt span x => do
    eval walk x
    let before := (← get).refs
    dropResult
    if (← get).refs.size != before.size then leakAt (some span.pos)
  | .tryCatch _ resources body catches finalizer => do
    inScope dropResult do
      resources.forM (runStmt walk)
      runBlock walk body
    catches.forM fun c => runBlock walk c.body
    runBlock walk finalizer
  | .varDecl d => declare env walk d
  | .yieldStmt _ value => do
    eval walk value
    relabelResult env Ref.asYielded
  | .unknown span sort => fail span.pos (.unknownStmt sort)

/-- The effect of one statement.  No result of an expression may be left over. -/
def stepStmt (env : Env) (walk : Walk) (s : Stmt) : Interp Unit := do
  stmtEffect env walk s
  checkLeftovers env s

end EarlyEscape.Interp
