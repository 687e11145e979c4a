import EarlyEscape.Symbol.Flags

/-!
# Symbols

Modules, packages, classes, methods and variables of a program, kept in one `SymbolTable` and
referred to by identifiers.  Two symbols are the same exactly when their identifiers are, whatever
their names.

An identifier that was never declared reads as a blank record, so every query is total.

## Main definitions

* `ModuleId`, `PackageId`, `ClassId`, `MethodId`, `VarId`, `Symbol` : identities.
* `PackageInfo`, `ClassInfo`, `MethodInfo`, `VarInfo` : what is declared about them.
* `SymbolTable` : the declarations of a program.
-/

namespace EarlyEscape

/-- A position in a source file; `0` stands for no position. -/
abbrev Pos := Int

/-! ### Identities -/

/-- The identity of a module. -/
structure ModuleId where
  index : Nat
deriving DecidableEq, Repr, Inhabited

/-- The identity of a package. -/
structure PackageId where
  index : Nat
deriving DecidableEq, Repr, Inhabited

/-- The identity of a class, interface or array type. -/
structure ClassId where
  index : Nat
deriving DecidableEq, Repr, Inhabited

/-- The identity of a method or constructor. -/
structure MethodId where
  index : Nat
deriving DecidableEq, Repr, Inhabited

/-- The identity of a variable. -/
structure VarId where
  index : Nat
deriving DecidableEq, Repr, Inhabited

/-- A symbol that a name can stand for and that can own declarations. -/
inductive Symbol where
  | package (p : PackageId)
  | cls (c : ClassId)
  | method (m : MethodId)
  | var (v : VarId)
deriving DecidableEq, Repr

namespace Symbol

/-- The class a symbol is, if it is one. -/
def class? : Symbol → Option ClassId
  | cls c => some c
  | _ => none

/-- The package a symbol is, if it is one. -/
def package? : Symbol → Option PackageId
  | package p => some p
  | _ => none

/-- The method a symbol is, if it is one. -/
def method? : Symbol → Option MethodId
  | method m => some m
  | _ => none

/-- The variable a symbol is, if it is one. -/
def var? : Symbol → Option VarId
  | var v => some v
  | _ => none

end Symbol

/-! ### Declarations -/

/-- A named module and the names of the packages it exports. -/
structure ModuleInfo where
  name : String := ""
  exports : List String := []
deriving Repr, Inhabited

/-- A package; packages outside any named module belong to none. -/
structure PackageInfo where
  name : String := ""
  module : Option ModuleId := none
deriving Repr, Inhabited

/-- Where a class is declared. -/
inductive ClassKind where
  | topLevel
  | member
  | localClass
  | anonymous
  | array
deriving DecidableEq, Repr, Inhabited

/-- A class, interface or array type. -/
structure ClassInfo where
  name : String := ""
  pos : Pos := 0
  owner : Option Symbol := none
  flags : Flags := .empty
  kind : ClassKind := .topLevel
  /-- The superclass; the root class and interfaces have none. -/
  super : Option ClassId := none
  /-- The interfaces implemented or extended directly. -/
  interfaces : List ClassId := []
  /-- The methods and constructors declared in the class. -/
  methods : List MethodId := []
  /-- The element type of an array type. -/
  elem : Option ClassId := none
  /-- The array type of this element type, once it is in use. -/
  array : Option ClassId := none
  /-- Whether instances refer to an instance of the enclosing class. -/
  hasOuter : Bool := false
deriving Repr, Inhabited

/-- A method or constructor. -/
structure MethodInfo where
  name : String := ""
  pos : Pos := 0
  /-- The declaring class. -/
  owner : Option ClassId := none
  flags : Flags := .empty
  params : List VarId := []
  /-- The result type; void and primitive results have none. -/
  result : Option ClassId := none
  isConstructor : Bool := false
deriving Repr, Inhabited

/-- The sort of a variable. -/
inductive VarKind where
  | localVar
  | param
  | field
  | binding
deriving DecidableEq, Repr, Inhabited

/-- A variable: local, parameter, field or pattern binding. -/
structure VarInfo where
  name : String := ""
  pos : Pos := 0
  owner : Option Symbol := none
  /-- The declared type; primitive types are not tracked. -/
  type : Option ClassId := none
  kind : VarKind := .localVar
  flags : Flags := .empty
deriving Repr, Inhabited

namespace ClassInfo

/-- Whether the class can have no subclasses. -/
def isFinal (c : ClassInfo) : Bool := c.flags.has .final

/-- Whether the class restricts its subclasses. -/
def isSealed (c : ClassInfo) : Bool := c.flags.has .sealed

/-- Whether the class is declared public. -/
def isPublic (c : ClassInfo) : Bool := c.flags.has .publicAccess

/-- Whether the class is an interface. -/
def isInterface (c : ClassInfo) : Bool := c.flags.has .interface

/-- Whether the class is an array type. -/
def isArray (c : ClassInfo) : Bool := c.kind == .array

/-- Whether the class is anonymous. -/
def isAnonymous (c : ClassInfo) : Bool := c.kind == .anonymous

/-- Whether the class is declared in a code block. -/
def isLocalOrAnonymous (c : ClassInfo) : Bool := c.kind == .localClass || c.kind == .anonymous

end ClassInfo

namespace MethodInfo

/-- The number of formal parameters. -/
def arity (m : MethodInfo) : Nat := m.params.length

/-- Whether the method needs no receiver. -/
def isStatic (m : MethodInfo) : Bool := m.flags.has .static

/-- Whether the method is private. -/
def isPrivate (m : MethodInfo) : Bool := m.flags.has .privateAccess

/-- Whether the method is declared final. -/
def isFinal (m : MethodInfo) : Bool := m.flags.has .final

/-- Whether the method is implemented outside the program. -/
def isNative (m : MethodInfo) : Bool := m.flags.has .native

/-- Whether subclasses in other packages can use the method. -/
def isPublicOrProtected (m : MethodInfo) : Bool :=
  m.flags.hasAny [.publicAccess, .protectedAccess]

end MethodInfo

namespace VarInfo

/-- Whether the variable is anything but a field. -/
def isLocal (v : VarInfo) : Bool := v.kind != .field

/-- Whether the variable is a static field. -/
def isStatic (v : VarInfo) : Bool := v.kind == .field && v.flags.has .static

end VarInfo

/-! ### The table -/

/-- The declarations of a program. -/
structure SymbolTable where
  modules : Array ModuleInfo := #[]
  packages : Array PackageInfo := #[]
  classes : Array ClassInfo := #[]
  methods : Array MethodInfo := #[]
  vars : Array VarInfo := #[]
deriving Repr, Inhabited

namespace SymbolTable

/-- What is declared about a module. -/
def module (t : SymbolTable) (m : ModuleId) : ModuleInfo := t.modules.getD m.index {}

/-- What is declared about a package. -/
def package (t : SymbolTable) (p : PackageId) : PackageInfo := t.packages.getD p.index {}

/-- What is declared about a class. -/
def cls (t : SymbolTable) (c : ClassId) : ClassInfo := t.classes.getD c.index {}

/-- What is declared about a method. -/
def method (t : SymbolTable) (m : MethodId) : MethodInfo := t.methods.getD m.index {}

/-- What is declared about a variable. -/
def var (t : SymbolTable) (v : VarId) : VarInfo := t.vars.getD v.index {}

/-- The number of symbols that can own others. -/
def size (t : SymbolTable) : Nat :=
  t.packages.size + t.classes.size + t.methods.size + t.vars.size

/-- The simple name of a symbol. -/
def name (t : SymbolTable) : Symbol → String
  | .package p => (t.package p).name
  | .cls c => (t.cls c).name
  | .method m => (t.method m).name
  | .var v => (t.var v).name

/-- The symbol that a symbol is declared in. -/
def owner? (t : SymbolTable) : Symbol → Option Symbol
  | .package _ => none
  | .cls c => (t.cls c).owner
  | .method m => (t.method m).owner.map .cls
  | .var v => (t.var v).owner

/-- The name of a module; the unnamed module has the empty name. -/
def moduleName (t : SymbolTable) : Option ModuleId → String
  | none => ""
  | some m => (t.module m).name

/-- Whether a package is visible outside a module.  The unnamed module exports everything. -/
def exports (t : SymbolTable) (m : Option ModuleId) (p : Option PackageId) : Bool :=
  match m, p with
  | none, _ => true
  | some _, none => false
  | some m, some p => (t.module m).exports.contains (t.package p).name

end SymbolTable

end EarlyEscape
