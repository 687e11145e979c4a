import EarlyEscape.Lint
import EarlyEscape.Symbol.Hierarchy
import EarlyEscape.Syntax.Access

/-!
# The catalog of a compilation unit

Before the analysis runs, every method and constructor of a compilation unit is classified: may
the analysis simulate its body, and is it a constructor the analysis starts from?  The catalog also
knows which classes no outside code can name and for which methods and fields warnings are
suppressed.

## Main definitions

* `Catalog.Entry` : the classification of one method.
* `Catalog` : the classification of a unit.
* `Catalog.lookup?`, `Catalog.overrider?` : the entry a call is resolved to.
-/

namespace EarlyEscape

/-- The classification of a method or constructor. -/
structure Catalog.Entry where
  /-- The declaration of the class it is declared in. -/
  cls : ClassDecl
  decl : MethodDecl
  /-- Whether the analysis starts from it: a public or protected constructor that outside code can
  use from a subclass, with warnings not suppressed. -/
  analyzable : Bool
  /-- Whether no override from outside can replace its body. -/
  invokable : Bool

/-- The classification of a compilation unit. -/
structure Catalog where
  /-- The methods and constructors, in the order in which they are declared first. -/
  entries : List (MethodId × Catalog.Entry) := []
  /-- The classes that are not public or declared inside one that is not. -/
  nonPublic : List ClassId := []
  /-- The methods and fields with warnings suppressed. -/
  suppressed : List Symbol := []
  /-- The classes with a constructor the analysis starts from, in order. -/
  analyzable : List ClassDecl := []

namespace Catalog

/-- What cannot be told about a class whose owner chain ends in a method that no class declares. -/
inductive Untold where
  | package
deriving DecidableEq, Repr

instance : Inhabited Catalog := ⟨{}⟩

/-- The entry of a method. -/
def lookup? (cat : Catalog) (m : Option MethodId) : Option Entry :=
  m.bind fun m => cat.entries.lookup m

/-- Whether a class is not public or declared inside one that is not. -/
def isNonPublic (cat : Catalog) (c : Option ClassId) : Bool :=
  c.any cat.nonPublic.contains

/-- Whether warnings are suppressed for a method or field. -/
def isSuppressed (cat : Catalog) (s : Symbol) : Bool := cat.suppressed.contains s

/-- The entries of the methods of a class under the name of a method, in order. -/
def candidates (cat : Catalog) (t : SymbolTable) (m : MethodId) (owner : ClassId) :
    List (MethodId × Entry) :=
  cat.entries.filter fun (candidate, _) =>
    (t.method candidate).owner == some owner && (t.method candidate).name == (t.method m).name

/-- The entry of the first method of a list that overrides `m` in the class `owner`, unless it
cannot be told for one before. -/
def firstOverrider (t : SymbolTable) (m : MethodId) (owner : ClassId) :
    List (MethodId × Entry) → Except Untold (Option Entry)
  | [] => .ok none
  | (candidate, e) :: rest =>
    match t.overrides? candidate m (some owner) with
    | none => .error .package
    | some true => .ok (some e)
    | some false => firstOverrider t m owner rest

/-- The first overrider is one of the methods of the list, and it overrides `m`. -/
theorem exists_of_firstOverrider {t : SymbolTable} {m : MethodId} {owner : ClassId}
    {l : List (MethodId × Entry)} {e : Entry} (h : firstOverrider t m owner l = .ok (some e)) :
    ∃ s, (s, e) ∈ l ∧ t.overrides? s m (some owner) = some true := by
  fun_induction firstOverrider t m owner l with
  | case1 => cases h
  | case2 => cases h
  | case3 candidate e' rest hover =>
    cases h
    exact ⟨candidate, List.mem_cons_self, hover⟩
  | case4 candidate e' rest hover ih =>
    obtain ⟨s, hs, hover'⟩ := ih h
    exact ⟨s, List.mem_cons_of_mem _ hs, hover'⟩

/-- The entry of the first method of the class `owner` that overrides `m` there, unless that cannot
be told. -/
def overrider? (cat : Catalog) (t : SymbolTable) (m : Option MethodId) (owner : Option ClassId) :
    Except Untold (Option Entry) :=
  match m, owner with
  | some m, some c => firstOverrider t m c (cat.candidates t m c)
  | _, _ => .ok none

/-- Records the entry of a method; a method recorded before keeps its place. -/
def record (cat : Catalog) (m : MethodId) (e : Entry) : Catalog :=
  if cat.entries.any (·.1 == m) then
    { cat with entries := cat.entries.map fun x => if x.1 == m then (m, e) else x }
  else { cat with entries := cat.entries ++ [(m, e)] }

end Catalog

end EarlyEscape
