import EarlyEscape.Symbol.Owner

/-!
# Inheritance

The subtype relation, the search for a method along the supertypes of a class, and overriding.
A walk along supertypes without repetition meets every class at most once, so the number of
classes bounds its length.

## Main definitions

* `ClassId.object` : the root of the hierarchy.
* `SymbolTable.isSubclass` : is a class the same as another or below it?
* `SymbolTable.lookupMethod` : the method a class has under a name and a number of parameters.
* `SymbolTable.overrides` : does a method replace another one?
* `SymbolTable.overrides?` : can that be told?
-/

namespace EarlyEscape

/-- The root of the class hierarchy, the first class of every table. -/
def ClassId.object : ClassId := ⟨0⟩

namespace SymbolTable

/-- The supertypes that a class names directly, its superclass first. -/
def directSupers (t : SymbolTable) (c : ClassId) : List ClassId :=
  (t.cls c).super.toList ++ (t.cls c).interfaces

/-- Whether `base` is the root class, or `c` itself, or reached from `c` by fewer than `n` steps to
a direct supertype. -/
def inheritsWithin (t : SymbolTable) : Nat → ClassId → ClassId → Bool
  | 0, _, _ => false
  | n + 1, c, base =>
    c == base || base == .object || (t.directSupers c).any fun s => t.inheritsWithin n s base

/-- Whether `base` is the class `c` or a supertype of it.  An absent class has no supertypes and
is none. -/
def isSubclass (t : SymbolTable) (c base : Option ClassId) : Bool :=
  match c, base with
  | some c, some b => t.inheritsWithin (t.classes.size + 1) c b
  | _, _ => false

/-- The innermost class around `c`, itself excluded, that is a subclass of `base`. -/
def enclosingSubclass? (t : SymbolTable) (c : ClassId) (base : Option ClassId) : Option ClassId :=
  ((t.owners (.cls c)).tail.filterMap Symbol.class?).find? fun e => t.isSubclass (some e) base

/-- The method a class declares itself under a name and a number of parameters; constructors do
not count. -/
def declaredMethod? (t : SymbolTable) (c : ClassId) (name : String) (arity : Nat) :
    Option MethodId :=
  (t.cls c).methods.find? fun m =>
    (t.method m).name == name && !(t.method m).isConstructor && (t.method m).arity == arity

/-- The search for a method along at most `n` supertypes: the class itself, then its superclass,
then its interfaces, then, for a class without superclass, the root class.  Array types have the
methods of the root class. -/
def lookupWithin (t : SymbolTable) : Nat → ClassId → String → Nat → Option MethodId
  | 0, _, _, _ => none
  | n + 1, c, name, arity =>
    if (t.cls c).isArray then t.lookupWithin n .object name arity
    else
      match t.declaredMethod? c name arity with
      | some m => some m
      | none =>
        match (t.directSupers c).findSome? fun s => t.lookupWithin n s name arity with
        | some m => some m
        | none =>
          if (t.cls c).super.isNone && c != .object then t.lookupWithin n .object name arity
          else none

/-- The method that a class declares or inherits under a name and a number of parameters. -/
def lookupMethod (t : SymbolTable) (c : Option ClassId) (name : String) (arity : Nat) :
    Option MethodId :=
  c.bind fun c => t.lookupWithin (t.classes.size + 2) c name arity

/-- Whether a method is a final method of the root class. -/
def isObjectFinal (t : SymbolTable) (m : MethodId) : Bool :=
  (t.method m).owner == some .object && (t.method m).isFinal

/-- The declared types of the parameters of a method. -/
def paramTypes (t : SymbolTable) (m : MethodId) : List (Option ClassId) :=
  (t.method m).params.map fun v => (t.var v).type

/-- Whether two different methods can stand in an overriding relation at all: both are instance
methods, the overridden one is not private, and name and parameter types agree. -/
def sameSignature (t : SymbolTable) (m other : MethodId) : Bool :=
  !(t.method m).isConstructor && !(t.method other).isConstructor &&
    !(t.method m).isStatic && !(t.method other).isStatic && !(t.method other).isPrivate &&
    (t.method m).name == (t.method other).name && t.paramTypes m == t.paramTypes other

/-- Whether a method is visible to a class for overriding: public and protected methods always
are, all others only inside their package. -/
def visibleFor (t : SymbolTable) (m : MethodId) (c : Option ClassId) : Bool :=
  (t.method m).isPublicOrProtected || c.bind t.packageOf? == (t.method m).owner.bind t.packageOf?

/-- Whether `m` overrides `other` as a member of `origin`.  A method overrides itself. -/
def overrides (t : SymbolTable) (m other : MethodId) (origin : Option ClassId) : Bool :=
  m == other ||
    (t.sameSignature m other && t.isSubclass (t.method m).owner (t.method other).owner &&
      t.isSubclass origin (t.method m).owner && t.visibleFor other (t.method m).owner)

/-- Whether it depends on packages alone if `m` overrides `other` as a member of `origin`. -/
def dependsOnPackages (t : SymbolTable) (m other : MethodId) (origin : Option ClassId) : Bool :=
  m != other && t.sameSignature m other && t.isSubclass (t.method m).owner (t.method other).owner &&
    t.isSubclass origin (t.method m).owner && !(t.method other).isPublicOrProtected

/-- Whether `m` overrides `other` as a member of `origin`, unless that depends on packages which
cannot be told. -/
def overrides? (t : SymbolTable) (m other : MethodId) (origin : Option ClassId) : Option Bool :=
  if t.dependsOnPackages m other origin &&
      ((t.method m).owner.any t.isStray || (t.method other).owner.any t.isStray) then none
  else some (t.overrides m other origin)

theorem overrides_of_overrides? {t : SymbolTable} {m other : MethodId} {origin : Option ClassId}
    (h : t.overrides? m other origin = some true) : t.overrides m other origin = true := by
  unfold overrides? at h
  split at h
  · cases h
  · exact Option.some.inj h

end SymbolTable

end EarlyEscape
