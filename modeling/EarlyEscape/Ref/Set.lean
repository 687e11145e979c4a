import EarlyEscape.Ref.Basic
import EarlyEscape.Sorting

/-!
# Sets of references

The state of the analysed program is a set of references.  Sets are listed in the order of
`Ref.compare`; that order needs the symbol table for positions and type names.  References that it
does not tell apart follow each other in an order that is a parameter of the listing.

## Main definitions

* `RefSet` : a list of references without repetition.
* `RefSet.insert`, `RefSet.union`, `RefSet.filter`, `RefSet.discard` : changes.
* `RefSet.find`, `RefSet.extract` : the references of one sort, in order.
* `RefSet.isListable` : is there an order?
* `RefSet.sameAs` : equality as sets; `RefSet.canonical` : one order for each set.
-/

namespace EarlyEscape

/-- A set of references. -/
@[ext]
structure RefSet where
  toList : List Ref
  nodup : toList.Nodup
deriving DecidableEq, Repr

namespace RefSet

/-- The set without references. -/
def empty : RefSet := ⟨[], .nil⟩

instance : Inhabited RefSet := ⟨empty⟩

instance : Membership Ref RefSet := ⟨fun s r => r ∈ s.toList⟩

instance (r : Ref) (s : RefSet) : Decidable (r ∈ s) := inferInstanceAs (Decidable (r ∈ s.toList))

theorem mem_def {r : Ref} {s : RefSet} : r ∈ s ↔ r ∈ s.toList := Iff.rfl

@[simp] theorem not_mem_empty (r : Ref) : r ∉ empty := List.not_mem_nil

/-- The number of references. -/
def size (s : RefSet) : Nat := s.toList.length

/-- Whether there are no references. -/
def isEmpty (s : RefSet) : Bool := s.toList.isEmpty

/-- Adds a reference. -/
def insert (s : RefSet) (r : Ref) : RefSet :=
  if h : r ∈ s.toList then s else ⟨r :: s.toList, List.nodup_cons.mpr ⟨h, s.nodup⟩⟩

@[simp] theorem mem_insert {s : RefSet} {r x : Ref} : x ∈ s.insert r ↔ x = r ∨ x ∈ s := by
  unfold insert
  split
  · next h => exact ⟨.inr, fun h' => h'.elim (fun e => e ▸ h) id⟩
  · exact List.mem_cons

/-- Adds the references of a list. -/
def insertAll (s : RefSet) (rs : List Ref) : RefSet := rs.foldl insert s

@[simp] theorem mem_insertAll {s : RefSet} {rs : List Ref} {x : Ref} :
    x ∈ s.insertAll rs ↔ x ∈ rs ∨ x ∈ s := by
  induction rs generalizing s with
  | nil => simp [insertAll]
  | cons r rs ih =>
    have := @ih (s.insert r)
    simp only [insertAll, List.foldl_cons, List.mem_cons] at *
    rw [this, mem_insert]
    constructor
    · rintro (h | h | h)
      · exact .inl (.inr h)
      · exact .inl (.inl h)
      · exact .inr h
    · rintro ((h | h) | h)
      · exact .inr (.inl h)
      · exact .inl h
      · exact .inr (.inr h)

/-- The set of the references of a list. -/
def ofList (rs : List Ref) : RefSet := empty.insertAll rs

@[simp] theorem mem_ofList {rs : List Ref} {x : Ref} : x ∈ ofList rs ↔ x ∈ rs := by
  simp [ofList]

/-- The references of either set. -/
def union (s o : RefSet) : RefSet := s.insertAll o.toList

/-- The references that satisfy a predicate. -/
def filter (s : RefSet) (p : Ref → Bool) : RefSet :=
  ⟨s.toList.filter p, List.Pairwise.filter p s.nodup⟩

@[simp] theorem mem_filter {s : RefSet} {p : Ref → Bool} {x : Ref} :
    x ∈ s.filter p ↔ x ∈ s ∧ p x = true :=
  List.mem_filter

/-- The references that do not satisfy a predicate. -/
def discard (s : RefSet) (p : Ref → Bool) : RefSet := s.filter fun r => !p r

@[simp] theorem mem_discard {s : RefSet} {p : Ref → Bool} {x : Ref} :
    x ∈ s.discard p ↔ x ∈ s ∧ p x = false := by
  simp [discard]

/-- Whether two sets hold the same references. -/
def sameAs (s o : RefSet) : Bool :=
  s.size == o.size && s.toList.all fun r => decide (r ∈ o)

/-- The set with its references in the order of their identity, whatever order they came in. -/
def canonical (s : RefSet) : RefSet :=
  ⟨sortBy (fun a b => (Ref.compareIdentity a b).isLE) s.toList,
    (sortBy_perm _ _).nodup_iff.mpr s.nodup⟩

@[simp] theorem mem_canonical {s : RefSet} {r : Ref} : r ∈ s.canonical ↔ r ∈ s := mem_sortBy

/-! ### Listing -/

/-- Whether the references have an order: none of those whose type has no text comes together with
another one. -/
def isListable (t : SymbolTable) (s : RefSet) : Bool :=
  s.toList.all fun a =>
    (t.classText? a.type).isSome || s.toList.all fun b => a == b || !a.samePlace t b

/-- The references in order. -/
def sorted (t : SymbolTable) (ties : TieOrder) (s : RefSet) : List Ref :=
  sortBy (fun a b => (Ref.compareListed t ties a b).isLE) s.toList

@[simp] theorem mem_sorted {t : SymbolTable} {ties : TieOrder} {s : RefSet} {r : Ref} :
    r ∈ s.sorted t ties ↔ r ∈ s :=
  mem_sortBy

/-- The references of one sort that satisfy a predicate, in order. -/
def find (t : SymbolTable) (ties : TieOrder) (s : RefSet) (k : Ref.Kind) (p : Ref → Bool) :
    List Ref :=
  (s.sorted t ties).filter fun r => r.kind == k && p r

@[simp] theorem mem_find {t : SymbolTable} {ties : TieOrder} {s : RefSet} {k : Ref.Kind}
    {p : Ref → Bool} {r : Ref} : r ∈ s.find t ties k p ↔ r ∈ s ∧ r.kind = k ∧ p r = true := by
  simp [find]

/-- The references of one sort that satisfy a predicate, in order, and the set without them. -/
def extract (t : SymbolTable) (ties : TieOrder) (s : RefSet) (k : Ref.Kind) (p : Ref → Bool) :
    List Ref × RefSet :=
  (s.find t ties k p, s.discard fun r => r.kind == k && p r)

/-- Whether a reference is the result of an expression at a scope depth. -/
def isExprAt (depth : Int) (r : Ref) : Bool := r.role == .expr depth

theorem isExprAt_iff {depth : Int} {r : Ref} : isExprAt depth r = true ↔ r.role = .expr depth := by
  simp [isExprAt]

/-- The results of expressions at a scope depth, in order, and the set without them. -/
def extractExprs (t : SymbolTable) (ties : TieOrder) (s : RefSet) (depth : Int) :
    List Ref × RefSet :=
  ((s.sorted t ties).filter (isExprAt depth), s.discard (isExprAt depth))

/-- The set without the results of expressions at a scope depth. -/
def discardExprs (s : RefSet) (depth : Int) : RefSet := s.discard (isExprAt depth)

theorem mem_discardExprs {s : RefSet} {depth : Int} {r : Ref} :
    r ∈ s.discardExprs depth ↔ r ∈ s ∧ r.role ≠ .expr depth := by
  simp [discardExprs, isExprAt]

/-- Replaces every result of an expression at a scope depth by its image; those without image are
lost. -/
def replaceExprs (s : RefSet) (depth : Int) (f : Ref → Option Ref) : RefSet :=
  (s.discardExprs depth).insertAll ((s.toList.filter (isExprAt depth)).filterMap f)

theorem mem_replaceExprs {s : RefSet} {depth : Int} {f : Ref → Ref} {r : Ref} :
    r ∈ s.replaceExprs depth (fun r => some (f r)) ↔
      (∃ x ∈ s, x.role = .expr depth ∧ f x = r) ∨ r ∈ s ∧ r.role ≠ .expr depth := by
  rw [replaceExprs, mem_insertAll, mem_discardExprs]
  simp only [List.filterMap_eq_map', List.mem_map, List.mem_filter, isExprAt_iff, mem_def,
    and_assoc]

/-- The texts of the references in order, if they have one. -/
def texts? (t : SymbolTable) (ties : TieOrder) (s : RefSet) : Option (List String) :=
  if s.isListable t then some ((s.sorted t ties).map (·.text t)) else none

/-- The text a set is shown as. -/
def text (t : SymbolTable) (ties : TieOrder) (s : RefSet) : String :=
  match s.texts? t ties with
  | some texts => "\x7b" ++ ", ".intercalate texts ++ "\x7d"
  | none => SymbolTable.noText

end RefSet

end EarlyEscape
