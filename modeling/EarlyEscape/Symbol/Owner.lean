import EarlyEscape.Symbol.Basic

/-!
# Enclosing declarations

A symbol, the symbol it is declared in, the symbol that one is declared in, and so on, form the
*owner chain* of a symbol.  Enclosing classes, the package and the qualified name of a class are
read off its chain.

## Main definitions

* `SymbolTable.owners` : the owner chain, the symbol itself first.
* `SymbolTable.enclosing?`, `SymbolTable.packageOf?`, `SymbolTable.isEnclosedBy`.
* `SymbolTable.isStray` : does the chain of a class end in a method that no class declares?
* `SymbolTable.qualifiedName?`, `SymbolTable.classText`, `SymbolTable.methodText?`.
-/

namespace EarlyEscape.SymbolTable

/-- The first `n` symbols of the owner chain of `s`, starting with `s`. -/
def ownersUpTo (t : SymbolTable) : Nat → Symbol → List Symbol
  | 0, _ => []
  | n + 1, s =>
    s :: match t.owner? s with
      | none => []
      | some o => t.ownersUpTo n o

/-- The owner chain of a symbol, the symbol itself first.  A chain without repetition has at most
as many members as there are symbols. -/
def owners (t : SymbolTable) (s : Symbol) : List Symbol := t.ownersUpTo (t.size + 1) s

/-- A class and the classes it is declared in, innermost first. -/
def enclosingClasses (t : SymbolTable) (c : ClassId) : List ClassId :=
  (t.owners (.cls c)).filterMap Symbol.class?

/-- The innermost class that a class is declared in. -/
def enclosing? (t : SymbolTable) (c : ClassId) : Option ClassId :=
  ((t.owners (.cls c)).tail.filterMap Symbol.class?).head?

/-- Whether the owner chain of a class ends in a method that no class declares.  It cannot be told
what package such a class belongs to and what its qualified name is. -/
def isStray (t : SymbolTable) (c : ClassId) : Bool :=
  match (t.owners (.cls c)).getLast? with
  | some (.method _) => true
  | _ => false

/-- The package that a class is declared in. -/
def packageOf? (t : SymbolTable) (c : ClassId) : Option PackageId :=
  ((t.owners (.cls c)).filterMap Symbol.package?).head?

/-- Whether `outer` is the class `c` or a class that `c` is declared in, directly or not.  No class
is enclosed by, or encloses, an absent class. -/
def isEnclosedBy (t : SymbolTable) (c outer : Option ClassId) : Bool :=
  match c, outer with
  | some c, some o => (t.enclosingClasses c).contains o
  | _, _ => false

/-- The name of a symbol as a part of a qualified name; only classes and packages with a name
count. -/
def namePart? (t : SymbolTable) : Symbol → Option String
  | .cls c => if (t.cls c).name = "" then none else some (t.cls c).name
  | .package p => if (t.package p).name = "" then none else some (t.package p).name
  | _ => none

/-- The name of a class with its package and enclosing classes, divided by dots. -/
def qualifiedName? (t : SymbolTable) (c : ClassId) : Option String :=
  if t.isStray c then none
  else some (".".intercalate ((t.owners (.cls c)).filterMap t.namePart?).reverse)

/-- The text a class, or the absence of one, is shown as. -/
def classText? (t : SymbolTable) : Option ClassId → Option String
  | none => some "<nil>"
  | some c => t.qualifiedName? c

/-- What stands in a longer text for a part that has no text. -/
def noText : String :=
  "%!v(PANIC=String method: runtime error: invalid memory address or nil pointer dereference)"

/-- The text of a class, or of the absence of one, as a part of a longer text. -/
def classText (t : SymbolTable) (c : Option ClassId) : String := (t.classText? c).getD noText

/-- The text a method is shown as: its name, after the qualified name of its class. -/
def methodText? (t : SymbolTable) (m : MethodId) : Option String :=
  match (t.method m).owner with
  | none => some (t.method m).name
  | some c => (t.qualifiedName? c).map fun name => name ++ "." ++ (t.method m).name

end EarlyEscape.SymbolTable
