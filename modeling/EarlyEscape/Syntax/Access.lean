import EarlyEscape.Syntax.Basic

/-!
# Reading program trees

Positions and sorts of nodes, the method or name that an expression stands for, and the members of
a class by their role.

## Main definitions

* `Node.span`, `Node.sort`, `Node.sortText` : where a node stands and what it is called.
* `Expr.method?`, `Expr.name`, `Expr.unparen` : what an expression denotes.
* `Member.isStatic`, `ClassDecl.methods`, `ClassDecl.constructors`, `ClassDecl.initializers`.
-/

namespace EarlyEscape

/-! ### Positions and sorts -/

/-- The source range of an expression. -/
def Expr.span : Expr → Span
  | ident span .. | select span .. | typeName span .. | call span .. | new span ..
  | newArray span .. | assign span .. | assignOp span .. | unary span .. | binary span ..
  | conditional span .. | cast span .. | instanceOf span .. | index span .. | paren span ..
  | lambda span .. | memberRef span .. | switchExpr span .. | literal span .. | unknown span .. =>
    span

/-- The position of an expression. -/
def Expr.pos (e : Expr) : Pos := e.span.pos

/-- The source range of a statement. -/
def Stmt.span : Stmt → Span
  | exprStmt span .. | ifElse span .. | whileLoop span .. | doLoop span .. | forLoop span ..
  | forEach span .. | labeled span .. | switch span .. | tryCatch span .. | synchronized span ..
  | returnStmt span .. | yieldStmt span .. | throwStmt span .. | branch span ..
  | assertStmt span .. | empty span | unknown span .. => span
  | block b => b.span
  | varDecl d => d.span
  | classDecl d => d.span

/-- The position of a statement. -/
def Stmt.pos (s : Stmt) : Pos := s.span.pos

/-- What an expression is called; unknown sorts are called as the front end says. -/
def Expr.sort : Expr → String
  | ident .. => "Ident"
  | select .. => "Select"
  | typeName .. => "TypeName"
  | call .. => "Call"
  | new .. => "New"
  | newArray .. => "NewArray"
  | assign .. => "Assign"
  | assignOp .. => "AssignOp"
  | unary .. => "Unary"
  | binary .. => "Binary"
  | conditional .. => "Conditional"
  | cast .. => "Cast"
  | instanceOf .. => "InstanceOf"
  | index .. => "Index"
  | paren .. => "Paren"
  | lambda .. => "Lambda"
  | memberRef .. => "MemberRef"
  | switchExpr .. => "SwitchExpr"
  | literal .. => "Literal"
  | unknown _ sort => sort

/-- What a statement is called; unknown sorts are called as the front end says. -/
def Stmt.sort : Stmt → String
  | exprStmt .. => "ExprStmt"
  | ifElse .. => "If"
  | whileLoop .. => "While"
  | doLoop .. => "DoWhile"
  | forLoop .. => "For"
  | forEach .. => "ForEach"
  | labeled .. => "Labeled"
  | switch .. => "Switch"
  | tryCatch .. => "Try"
  | synchronized .. => "Synchronized"
  | returnStmt .. => "Return"
  | yieldStmt .. => "Yield"
  | throwStmt .. => "Throw"
  | branch .. => "Branch"
  | assertStmt .. => "Assert"
  | empty _ => "Empty"
  | block _ => "Block"
  | varDecl _ => "VarDecl"
  | classDecl _ => "ClassDecl"
  | unknown _ sort => sort

namespace Node

/-- The source range of a node. -/
def span : Node → Span
  | expr e => e.span
  | stmt s => s.span
  | method d => d.span
  | switchCase c => c.span
  | catchClause c => c.span
  | annot a => a.span
  | file u => u.span

/-- The position of a node. -/
def pos (n : Node) : Pos := n.span.pos

/-- What a node is called; unknown sorts are called as the front end says. -/
def sort : Node → String
  | expr e => e.sort
  | stmt s => s.sort
  | method _ => "MethodDecl"
  | switchCase _ => "Case"
  | catchClause _ => "Catch"
  | annot _ => "Annotation"
  | file _ => "CompilationUnit"

/-- Whether a node is of a known sort. -/
def isKnown : Node → Bool
  | expr (.unknown ..) => false
  | stmt (.unknown ..) => false
  | _ => true

/-- The text that messages name the sort of a node by. -/
def sortText (n : Node) : String := if n.isKnown then "*tree." ++ n.sort else n.sort

end Node

/-! ### What an expression denotes -/

mutual

/-- The method that a name or selection, in parentheses or not, is resolved to. -/
def Expr.method? : Expr → Option MethodId
  | .ident _ _ sym => sym.bind Symbol.method?
  | .select _ _ _ sym => sym.bind Symbol.method?
  | .paren _ x => methodOf? x
  | _ => none
termination_by structural e => e

/-- The method that an expression, if there is one, is resolved to. -/
def methodOf? : Option Expr → Option MethodId
  | none => none
  | some e => e.method?
termination_by structural e => e

end

mutual

/-- An expression without the parentheses around it. -/
def Expr.unparen : Expr → Option Expr
  | .paren _ x => unparen? x
  | e => some e
termination_by structural e => e

/-- An expression, if there is one, without the parentheses around it. -/
def unparen? : Option Expr → Option Expr
  | none => none
  | some e => e.unparen
termination_by structural e => e

end

/-- The simple name of a name or selection, and the empty text for all else. -/
def Expr.name : Expr → String
  | .ident _ name _ => name
  | .select _ _ name _ => name
  | _ => ""

/-- The simple name of an expression, if there is one. -/
def nameOf : Option Expr → String
  | none => ""
  | some e => e.name

/-- The method that a call invokes. -/
def Expr.callMethod? : Expr → Option MethodId
  | .call _ callee _ => methodOf? callee
  | _ => none

/-! ### Members of a class -/

/-- Whether a declaration declares a constructor. -/
def MethodDecl.isConstructor (t : SymbolTable) (d : MethodDecl) : Bool :=
  d.sym.any fun m => (t.method m).isConstructor

/-- Whether a member belongs to the class rather than to its instances. -/
def Member.isStatic (t : SymbolTable) : Member → Bool
  | .field d => d.sym.any fun v => (t.var v).isStatic
  | .initializer b => b.isStatic
  | .method d => d.sym.any fun m => (t.method m).isStatic
  | .nested d => d.sym.any fun c => !(t.cls c).hasOuter
  | .unknown .. => false

/-- Whether a member is code that runs for every new instance: a field with an initializer or an
initializer block, neither of them static. -/
def Member.isInitializer (t : SymbolTable) : Member → Bool
  | .field d => d.init.isSome && !(Member.field d).isStatic t
  | .initializer b => !b.isStatic
  | _ => false

namespace ClassDecl

/-- The methods and constructors of a class, in order. -/
def methods (d : ClassDecl) : List MethodDecl :=
  d.members.filterMap fun
    | .method m => some m
    | _ => none

/-- The constructors of a class, in order. -/
def constructors (t : SymbolTable) (d : ClassDecl) : List MethodDecl :=
  d.methods.filter (·.isConstructor t)

/-- The members of a class whose code runs for every new instance, in order. -/
def initializers (t : SymbolTable) (d : ClassDecl) : List Member :=
  d.members.filter (·.isInitializer t)

end ClassDecl

end EarlyEscape
