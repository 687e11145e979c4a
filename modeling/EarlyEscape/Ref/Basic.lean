import EarlyEscape.Symbol.Owner

/-!
# References

A *reference* is a value of the running program that may lead to the instance under construction.
It has a role (where the value is held), a type, and a non-empty set of *indirections*: the ways
in which the value is related to the instance.

## Main definitions

* `Indirection.direct`, `Indirection.outer`, `Indirection.indirect` : the value is the instance,
  has it as its outer instance, or may contain it.
* `Ref` : a reference; `Ref.ofThis?` and `Ref.ofExpr?` refuse an empty set of indirections.
* `Ref.toOuter`, `Ref.fromOuter`, `Ref.toIndirect`, `Ref.fromIndirect` : how the relation to the
  instance changes along the outer link and along containment.
* `Ref.compare` : the order in which references are listed.
* `Ref.compareIdentity` : an order that tells all references apart.
* `TieOrder`, `Ref.compareListed` : an order of the references that the listing order ties.
-/

namespace EarlyEscape

/-! ### Indirections -/

/-- A set of ways in which a value is related to the instance under construction. -/
abbrev Indirections := BitMask 8

namespace Indirection

/-- The value is the instance. -/
def direct : BitVec 8 := 1

/-- The instance is the outer instance of the value. -/
def outer : BitVec 8 := 2

/-- The value may contain the instance. -/
def indirect : BitVec 8 := 4

/-- The text a single indirection is shown as. -/
def text (i : BitVec 8) : String :=
  if i = direct then "DIRECT"
  else if i = outer then "OUTER"
  else if i = indirect then "INDIRECT"
  else "Indirection(" ++ toString i.toNat ++ ")"

end Indirection

/-- The set that holds `direct` alone. -/
def Indirections.direct : Indirections := .ofList [Indirection.direct]

/-- The set that holds `indirect` alone. -/
def Indirections.indirect : Indirections := .ofList [Indirection.indirect]

/-! ### References -/

/-- The sorts of places that hold a value. -/
inductive Ref.Kind where
  | this
  | expr
  | var
  | returned
  | yielded
deriving DecidableEq, Repr

namespace Ref.Kind

/-- All sorts of places, in the order in which references are listed. -/
def all : List Kind := [this, expr, var, returned, yielded]

/-- The number of a sort of places. -/
def code : Kind → Nat
  | this => 0
  | expr => 1
  | var => 2
  | returned => 3
  | yielded => 4

/-- The text a sort of places is shown as. -/
def name : Kind → String
  | this => "ThisRef"
  | expr => "ExprRef"
  | var => "VarRef"
  | returned => "ReturnRef"
  | yielded => "YieldRef"

/-- The text for a number, also one that is no sort of places. -/
def textOfCode (n : Nat) : String :=
  match all.find? (·.code == n) with
  | some k => k.name
  | none => "Kind(" ++ toString n ++ ")"

end Ref.Kind

/-- The place that holds a value. -/
inductive Ref.Role where
  /-- The receiver of the running method. -/
  | this
  /-- The result of the last expression at a scope depth. -/
  | expr (depth : Int)
  /-- A local variable or parameter. -/
  | var (v : VarId)
  /-- The result of the running method. -/
  | returned
  /-- The result of the running switch. -/
  | yielded
deriving DecidableEq, Repr

/-- The sort of a place. -/
def Ref.Role.kind : Ref.Role → Ref.Kind
  | this => .this
  | expr _ => .expr
  | var _ => .var
  | returned => .returned
  | yielded => .yielded

/-- A value that may lead to the instance under construction. -/
@[ext]
structure Ref where
  role : Ref.Role
  /-- The type currently ascribed to the value. -/
  type : Option ClassId
  ind : Indirections
deriving DecidableEq, Repr

namespace Ref

/-- The text of the error for a reference that would be related to nothing. -/
def emptyIndirections : String := "ref: empty indirections"

/-- A reference to the receiver, unless the set of indirections is empty. -/
def ofThis? (type : Option ClassId) (ind : Indirections) : Option Ref :=
  if ind.isEmpty then none else some ⟨.this, type, ind⟩

/-- The reference of an instance to itself at the start of its construction. -/
def start (cls : Option ClassId) : Ref := ⟨.this, cls, .direct⟩

/-- The sort of place that holds the value. -/
def kind (r : Ref) : Kind := r.role.kind

theorem kind_of_role_expr {r : Ref} {k : Int} (h : r.role = .expr k) : r.kind = .expr := by
  simp [kind, h, Role.kind]

theorem kind_eq_expr_iff {r : Ref} : r.kind = .expr ↔ ∃ k, r.role = .expr k := by
  unfold kind
  cases r.role <;> simp [Role.kind]

theorem kind_eq_var_iff {r : Ref} : r.kind = .var ↔ ∃ v, r.role = .var v := by
  unfold kind
  cases r.role <;> simp [Role.kind]

theorem kind_eq_returned_iff {r : Ref} : r.kind = .returned ↔ r.role = .returned := by
  unfold kind
  cases r.role <;> simp [Role.kind]

theorem kind_eq_yielded_iff {r : Ref} : r.kind = .yielded ↔ r.role = .yielded := by
  unfold kind
  cases r.role <;> simp [Role.kind]

/-- The scope depth of an expression's value, `0` for all other references. -/
def depth (r : Ref) : Int :=
  match r.role with
  | .expr d => d
  | _ => 0

/-- The variable that holds the value, if one does. -/
def var? (r : Ref) : Option VarId :=
  match r.role with
  | .var v => some v
  | _ => none

/-- Whether the value may be the instance itself. -/
def isDirect (r : Ref) : Bool := r.ind.meets Indirection.direct

/-! ### Changes of place and type -/

/-- The value held as the receiver. -/
def asThis (r : Ref) : Ref := { r with role := .this }

/-- The value held as the result of an expression. -/
def asExpr (r : Ref) (depth : Int) : Ref := { r with role := .expr depth }

/-- The value held in a variable. -/
def asVar (r : Ref) (v : VarId) : Ref := { r with role := .var v }

/-- The value held as the result of the method. -/
def asReturned (r : Ref) : Ref := { r with role := .returned }

/-- The value held as the result of the switch. -/
def asYielded (r : Ref) : Ref := { r with role := .yielded }

/-- The value with another type. -/
def withType (r : Ref) (type : Option ClassId) : Ref := { r with type }

/-- A reference to the result of an expression, unless the set of indirections is empty. -/
def ofExpr? (depth : Int) (type : Option ClassId) (ind : Indirections) : Option Ref :=
  (ofThis? type ind).map (·.asExpr depth)

/-! ### Projections -/

/-- The image of a reference when every indirection changes by `f`; indirections without image are
lost, and a reference that loses all of them leads nowhere. -/
def project (r : Ref) (type : Option ClassId) (f : BitVec 8 → Option (BitVec 8)) : Option Ref :=
  let ind : Indirections := .ofList (r.ind.toList.filterMap f)
  if ind.isEmpty then none else some { r with type, ind }

theorem role_of_project {r r' : Ref} {c : Option ClassId} {f : BitVec 8 → Option (BitVec 8)}
    (h : r.project c f = some r') : r'.role = r.role := by
  simp only [project] at h
  split at h
  · cases h
  · cases h
    rfl

theorem kind_of_project {r r' : Ref} {c : Option ClassId} {f : BitVec 8 → Option (BitVec 8)}
    (h : r.project c f = some r') : r'.kind = r.kind :=
  congrArg Role.kind (role_of_project h)

/-- From an outer instance to a new instance that has it: what was the instance itself is now its
outer instance, and everything else is further inside. -/
def toOuter (r : Ref) (type : Option ClassId) : Option Ref :=
  r.project type fun i =>
    if i = Indirection.direct then some Indirection.outer else some Indirection.indirect

/-- From an instance to its outer instance. -/
def fromOuter (r : Ref) (type : Option ClassId) : Option Ref :=
  r.project type fun i => if i = Indirection.outer then some Indirection.direct else none

/-- From a value to one that contains it. -/
def toIndirect (r : Ref) : Option Ref :=
  r.project r.type fun _ => some Indirection.indirect

/-- From a value to one that it contains. -/
def fromIndirect (r : Ref) (type : Option ClassId) : Option Ref :=
  r.project type fun i => if i = Indirection.indirect then some Indirection.direct else none

/-! ### Text and order -/

/-- The text of the place that holds the value, as far as it needs one. -/
def roleText (t : SymbolTable) : Role → String
  | .expr d => "depth=" ++ toString d ++ ","
  | .var v => "sym=" ++ (t.var v).name ++ ","
  | _ => ""

/-- The text a reference is shown as. -/
def text (t : SymbolTable) (r : Ref) : String :=
  r.kind.name ++ "[" ++ roleText t r.role ++ "tsym=" ++ t.classText r.type ++ ",ind=" ++
    "|".intercalate (r.ind.toList.map Indirection.text) ++ "]"

/-- The position of the variable that holds the value, `-1` if none does. -/
def varPos (t : SymbolTable) (r : Ref) : Pos :=
  match r.var? with
  | some v => (t.var v).pos
  | none => -1

/-- Whether the places that hold two values come together in the order. -/
def samePlace (t : SymbolTable) (a b : Ref) : Bool :=
  a.kind == b.kind && a.depth == b.depth && a.varPos t == b.varPos t

/-- The order in which references are listed: by sort of place, depth, position of the variable,
text of the type and word of indirections. -/
def compare (t : SymbolTable) (a b : Ref) : Ordering :=
  (Ord.compare a.kind.code b.kind.code).then <|
  (Ord.compare a.depth b.depth).then <|
  (Ord.compare (a.varPos t) (b.varPos t)).then <|
  (Ord.compare (t.classText a.type) (t.classText b.type)).then <|
  Ord.compare a.ind.bits.toNat b.ind.bits.toNat

/-- The number of the variable that holds the value, `0` if none does. -/
def varKey (r : Ref) : Nat := r.var?.elim 0 (·.index + 1)

/-- The number of the type of the value, `0` if it has none. -/
def typeKey (r : Ref) : Nat := r.type.elim 0 (·.index + 1)

/-- The order of references by identity. -/
def compareIdentity : Ref → Ref → Ordering :=
  compareLex (compareOn (·.kind.code)) <|
  compareLex (compareOn depth) <|
  compareLex (compareOn varKey) <|
  compareLex (compareOn typeKey) <|
  compareOn (·.ind.bits.toNat)

end Ref

/-- The order in which references are met that come together in the listing order, as those of two
classes with one name do.  The one with the smaller number comes first; references with the same
number follow the order of identity.

Nothing about the references says what this order is, so it is left open in all that depends on it.
-/
abbrev TieOrder := Ref → Nat

/-- Tied references follow the order of identity. -/
def TieOrder.byIdentity : TieOrder := fun _ => 0

/-- The listing order in which references that come together follow a given order. -/
def Ref.compareListed (t : SymbolTable) (ties : TieOrder) : Ref → Ref → Ordering :=
  compareLex (compare t) (compareLex (compareOn ties) compareIdentity)

end EarlyEscape
