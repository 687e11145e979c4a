import EarlyEscape.Symbol.Basic

/-!
# Program trees

The typed tree of a compilation unit.  Names are resolved: identifiers, calls and declarations
refer to symbols where the front end knew them.

A front end may leave holes, so a part of a node that holds one expression, statement or
declaration is optional, and the lists of expressions and statements may have empty entries.  It
may also hand over nodes of a sort this library does not know; each of the open categories has a
constructor `unknown` for them that keeps the text the sort is shown as.

Declarations of classes and methods carry a `DeclId`.  One declaration may occur in several places
of a tree; its occurrences share the identifier.

## Main definitions

* `Expr`, `Stmt`, `Member` : expressions, statements, class members.
* `VarDecl`, `Block`, `MethodDecl`, `ClassDecl`, `Case`, `Catch`, `CompilationUnit` : the records
  of a tree.
* `Node` : any node of a tree.
-/

namespace EarlyEscape

/-- The source range of a node: its first position and the one after its last. -/
structure Span where
  pos : Pos
  stop : Pos
deriving DecidableEq, Repr, Inhabited

/-- The identity of a declaration of a class or method. -/
structure DeclId where
  index : Nat
deriving DecidableEq, Repr, Inhabited

/-- A declaration annotation with its text arguments. -/
structure Annotation where
  span : Span
  /-- The simple or qualified name of the annotation type. -/
  name : String
  args : List String
deriving Repr, Inhabited

/-- The sort of a method reference. -/
inductive MemberRefKind where
  /-- A static method. -/
  | static
  /-- An instance method without receiver. -/
  | unbound
  /-- An instance method of the value of an expression. -/
  | bound
  /-- A method of the superclass. -/
  | super
  /-- A constructor of a class with an implicit outer instance. -/
  | implicitInner
  /-- A constructor of a class without outer instance. -/
  | topLevel
  /-- A constructor of an array type. -/
  | arrayConstructor
deriving DecidableEq, Repr, Inhabited

/-- The two statements that leave a loop body early. -/
inductive BranchKind where
  | break
  | continue
deriving DecidableEq, Repr, Inhabited

mutual

/-- An expression. -/
inductive Expr where
  /-- A simple name: a variable, the method of a call, `this` or `super`. -/
  | ident (span : Span) (name : String) (sym : Option Symbol)
  /-- The member `name` of `x`, including a qualified `this` or `super`. -/
  | select (span : Span) (x : Option Expr) (name : String) (sym : Option Symbol)
  /-- A type in the place of an expression. -/
  | typeName (span : Span) (sym : Option ClassId)
  /-- A call; `callee` names the invoked method. -/
  | call (span : Span) (callee : Option Expr) (args : List (Option Expr))
  /-- The creation of an instance, possibly with an explicit outer instance and, for an anonymous
  class, with a class body. -/
  | new (span : Span) (outer : Option Expr) (cls : Option ClassId) (ctor : Option MethodId)
      (args : List (Option Expr)) (body : Option ClassDecl)
  /-- The creation of an array. -/
  | newArray (span : Span) (type : Option ClassId) (dims elems : List (Option Expr))
  /-- A simple assignment. -/
  | assign (span : Span) (lhs rhs : Option Expr)
  /-- A compound assignment. -/
  | assignOp (span : Span) (op : String) (lhs rhs : Option Expr)
  /-- An expression with one operand. -/
  | unary (span : Span) (op : String) (x : Option Expr)
  /-- An expression with two operands. -/
  | binary (span : Span) (op : String) (x y : Option Expr)
  /-- A choice between two expressions. -/
  | conditional (span : Span) (cond yes no : Option Expr)
  /-- A cast; casts to a primitive type name no class. -/
  | cast (span : Span) (type : Option ClassId) (x : Option Expr)
  /-- A type test that may bind a pattern variable. -/
  | instanceOf (span : Span) (x : Option Expr) (type : Option ClassId) (binding : Option VarDecl)
  /-- The element `index` of the array `x`; primitive elements have no class. -/
  | index (span : Span) (x index : Option Expr) (elem : Option ClassId)
  /-- An expression in parentheses. -/
  | paren (span : Span) (x : Option Expr)
  /-- A function; its body is an expression or a block. -/
  | lambda (span : Span) (params : List VarDecl) (body : Option Node) (type : Option ClassId)
  /-- A method or constructor used as a function. -/
  | memberRef (span : Span) (x : Option Expr) (name : String) (sym : Option MethodId)
      (kind : MemberRefKind) (type : Option ClassId)
  /-- A switch with a value. -/
  | switchExpr (span : Span) (selector : Option Expr) (cases : List Case)
  /-- A constant. -/
  | literal (span : Span) (value : String)
  /-- An expression of an unknown sort. -/
  | unknown (span : Span) (sort : String)

/-- A statement. -/
inductive Stmt where
  | exprStmt (span : Span) (x : Option Expr)
  | ifElse (span : Span) (cond : Option Expr) (yes no : Option Stmt)
  | whileLoop (span : Span) (cond : Option Expr) (body : Option Stmt)
  | doLoop (span : Span) (body : Option Stmt) (cond : Option Expr)
  | forLoop (span : Span) (init : List (Option Stmt)) (cond : Option Expr)
      (post : List (Option Stmt)) (body : Option Stmt)
  | forEach (span : Span) (var : Option VarDecl) (x : Option Expr) (body : Option Stmt)
  | labeled (span : Span) (label : String) (body : Option Stmt)
  | switch (span : Span) (selector : Option Expr) (cases : List Case)
  | tryCatch (span : Span) (resources : List (Option Stmt)) (body : Option Block)
      (catches : List Catch) (finalizer : Option Block)
  | synchronized (span : Span) (lock : Option Expr) (body : Option Block)
  | returnStmt (span : Span) (result : Option Expr)
  | yieldStmt (span : Span) (value : Option Expr)
  | throwStmt (span : Span) (x : Option Expr)
  | branch (span : Span) (kind : BranchKind) (label : String)
  | assertStmt (span : Span) (cond detail : Option Expr)
  | empty (span : Span)
  | block (b : Block)
  | varDecl (d : VarDecl)
  | classDecl (d : ClassDecl)
  /-- A statement of an unknown sort. -/
  | unknown (span : Span) (sort : String)

/-- A member of a class. -/
inductive Member where
  | field (d : VarDecl)
  | method (d : MethodDecl)
  | initializer (b : Block)
  | nested (d : ClassDecl)
  /-- A member of an unknown sort. -/
  | unknown (span : Span) (sort : String)

/-- The declaration of a field, local variable, parameter or pattern binding. -/
structure VarDecl where
  span : Span
  sym : Option VarId
  annotations : List Annotation
  init : Option Expr

/-- A block of statements, or an initializer block of a class. -/
structure Block where
  span : Span
  isStatic : Bool
  stmts : List (Option Stmt)

/-- The declaration of a method or constructor; abstract and native methods have no body. -/
structure MethodDecl where
  id : DeclId
  span : Span
  sym : Option MethodId
  annotations : List Annotation
  params : List VarDecl
  body : Option Block

/-- The declaration of a class or interface. -/
structure ClassDecl where
  id : DeclId
  span : Span
  sym : Option ClassId
  annotations : List Annotation
  members : List Member

/-- A case of a switch: constant labels, pattern bindings, a guard and the statements. -/
structure Case where
  span : Span
  labels : List (Option Expr)
  bindings : List VarDecl
  guard : Option Expr
  body : List (Option Stmt)

/-- A clause that handles an exception. -/
structure Catch where
  span : Span
  param : Option VarDecl
  body : Option Block

/-- A source file with its top level classes. -/
structure CompilationUnit where
  span : Span
  /-- The name of the file. -/
  name : String
  package : Option PackageId
  /-- The module of the file; without modules in use there is none. -/
  module : Option ModuleId
  classes : List ClassDecl

/-- Any node of a tree. -/
inductive Node where
  | expr (e : Expr)
  | stmt (s : Stmt)
  | method (d : MethodDecl)
  | switchCase (c : Case)
  | catchClause (c : Catch)
  | annot (a : Annotation)
  | file (u : CompilationUnit)

end

instance : Inhabited Expr := ⟨.literal default ""⟩

instance : Inhabited Stmt := ⟨.empty default⟩

instance : Inhabited ClassDecl := ⟨⟨default, default, none, [], []⟩⟩

instance : Inhabited Node := ⟨.expr default⟩

namespace Node

/-- A block as a node. -/
abbrev ofBlock (b : Block) : Node := stmt (.block b)

/-- The declaration of a variable as a node. -/
abbrev ofVarDecl (d : VarDecl) : Node := stmt (.varDecl d)

/-- The declaration of a class as a node. -/
abbrev ofClassDecl (d : ClassDecl) : Node := stmt (.classDecl d)

/-- A member of a class as a node. -/
def ofMember : Member → Node
  | .field d => ofVarDecl d
  | .method d => method d
  | .initializer b => ofBlock b
  | .nested d => ofClassDecl d
  | .unknown span sort => stmt (.unknown span sort)

end Node

end EarlyEscape
