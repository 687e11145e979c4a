import EarlyEscape.Proofs.Ref.Same
import Mathlib.Data.List.Nodup
import Mathlib.Logic.Equiv.Basic

/-!
# Listings of sets of references

The listing order compares references by what is shown of them, and of the variable that holds a
value and of its type only a position and a text are shown.  So the order is total and transitive,
but it does not tell two variables at one position apart, nor two classes with one text, such as the
anonymous classes of a class.  References that it ties may be listed in either order; and a set has
no listing at all if two of its references can only be compared by a text that one of them does not
have.

An order of the references that are tied, which is a parameter of `RefSet.sorted`, chooses one of
the listings, and all of them can be chosen.

## Main definitions

* `Ref.listingKey` : what the listing order looks at.
* `Ref.Comparable` : the texts that the comparison of two references needs exist.
* `RefSet.Listing` : a list holds the references of a set in the listing order.
* `RefSet.Untied` : the listing order tells all references of a set apart.

## Main results

* `Ref.eq_iff_compare_eq` : apart from the variable and the class itself nothing is overlooked.
* `RefSet.listing_iff_sorted` : the listings are what orders of tied references choose.
* `RefSet.Listing.swapped` : two references that are tied can change their places.
* `RefSet.listing_unique_iff_untied` : a set has a single listing exactly if it has no ties.
* `RefSet.namesakes_have_two_listings` : the anonymous classes of a class are tied.
-/

namespace EarlyEscape

namespace Ref

variable {t : SymbolTable} {a b : Ref}

/-- What the listing order looks at: sort of place, depth, position of the variable, text of the
type and word of indirections. -/
def listingKey (t : SymbolTable) (r : Ref) : Nat × Int × Pos × String × Nat :=
  (r.kind.code, r.depth, r.varPos t, t.classText r.type, r.ind.bits.toNat)

/-- The lexicographic order of what the listing order looks at. -/
def compareKeys : Nat × Int × Pos × String × Nat → Nat × Int × Pos × String × Nat → Ordering :=
  compareLex (compareOn (·.1)) <|
  compareLex (compareOn (·.2.1)) <|
  compareLex (compareOn (·.2.2.1)) <|
  compareLex (compareOn (·.2.2.2.1)) <|
  compareOn (·.2.2.2.2)

instance : Std.TransCmp compareKeys := by
  unfold compareKeys
  infer_instance

instance : Std.LawfulEqCmp compareKeys where
  eq_of_compare {k k'} h := by
    simp only [compareKeys, compareLex_eq_eq, compareOn, Std.LawfulEqCmp.compare_eq_iff_eq] at h
    obtain ⟨hkind, hdepth, hpos, htext, hind⟩ := h
    exact Prod.ext hkind (Prod.ext hdepth (Prod.ext hpos (Prod.ext htext hind)))

theorem compare_eq_compareKeys (t : SymbolTable) (a b : Ref) :
    compare t a b = compareKeys (listingKey t a) (listingKey t b) :=
  rfl

theorem compare_eq_iff : compare t a b = .eq ↔ listingKey t a = listingKey t b := by
  rw [compare_eq_compareKeys, Std.LawfulEqCmp.compare_eq_iff_eq]

/-- Of two references that are tied, at least the variables or the types are different. -/
theorem eq_iff_compare_eq :
    a = b ↔ compare t a b = .eq ∧ a.var? = b.var? ∧ a.type = b.type := by
  constructor
  · rintro rfl
    exact ⟨Std.ReflCmp.compare_self, rfl, rfl⟩
  · rintro ⟨hcmp, hvar, htype⟩
    obtain ⟨role, type, ⟨bits⟩⟩ := a
    obtain ⟨role', type', ⟨bits'⟩⟩ := b
    simp only [compare_eq_iff, listingKey, Prod.mk.injEq] at hcmp
    obtain ⟨hkind, hdepth, -, -, hind⟩ := hcmp
    obtain rfl : role = role' :=
      eq_of_roleKeys hkind hdepth (congrArg (fun v : Option VarId => v.elim 0 (·.index + 1)) hvar)
    obtain rfl : type = type' := htype
    obtain rfl : bits = bits' := BitVec.eq_of_toNat_eq hind
    rfl

/-- Two references can be compared if they do not come together, or if both types have a text. -/
def Comparable (t : SymbolTable) (a b : Ref) : Prop :=
  a.samePlace t b = true → (t.classText? a.type).isSome = true ∧ (t.classText? b.type).isSome = true

theorem samePlace_comm (t : SymbolTable) (a b : Ref) : a.samePlace t b = b.samePlace t a := by
  simp only [samePlace, Bool.beq_comm]

end Ref

namespace RefSet

variable {t : SymbolTable} {s o : RefSet} {l l' : List Ref} {a b : Ref}

/-- The list holds the references of a set, each of them once and in the listing order, and any two
of them can be compared. -/
structure Listing (t : SymbolTable) (s : RefSet) (l : List Ref) : Prop where
  comparable : ∀ a ∈ s, ∀ b ∈ s, a ≠ b → a.Comparable t b
  perm : l.Perm s.toList
  ordered : l.Pairwise fun a b => (Ref.compare t a b).isLE = true

/-- The listing order tells all references of the set apart. -/
def Untied (t : SymbolTable) (s : RefSet) : Prop :=
  ∀ a ∈ s, ∀ b ∈ s, Ref.compare t a b = .eq → a = b

theorem isListable_iff :
    s.isListable t = true ↔ ∀ a ∈ s, ∀ b ∈ s, a ≠ b → a.Comparable t b := by
  simp only [isListable, List.all_eq_true, Bool.or_eq_true, beq_iff_eq, Bool.not_eq_true',
    ← mem_def]
  constructor
  · intro h a ha b hb hne hplace
    have htext {a b : Ref} (ha : a ∈ s) (hb : b ∈ s) (hne : a ≠ b)
        (hplace : a.samePlace t b = true) : (t.classText? a.type).isSome = true :=
      (h a ha).resolve_right fun hall =>
        (hall b hb).elim hne fun hapart => Bool.false_ne_true (hapart.symm.trans hplace)
    exact ⟨htext ha hb hne hplace, htext hb ha hne.symm (Ref.samePlace_comm t a b ▸ hplace)⟩
  · intro h a ha
    by_cases htext : (t.classText? a.type).isSome = true
    · exact .inl htext
    · refine .inr fun b hb => or_iff_not_imp_left.mpr fun hne => ?_
      exact Bool.eq_false_iff.mpr fun hplace => htext (h a ha b hb hne hplace).1

/-! ### All listings of a set -/

/-- An order of tied references chooses one of the listings. -/
theorem listing_sorted (h : s.isListable t = true) (ties : TieOrder) :
    Listing t s (s.sorted t ties) := by
  refine ⟨isListable_iff.mp h, sortBy_perm _ _, (sortBy_isLE_pairwise s.toList).imp fun hle => ?_⟩
  rw [Ref.compareListed, compareLex] at hle
  exact (Ordering.isLE_then_iff_and.mp hle).1

namespace Listing

theorem mem_iff (h : Listing t s l) {r : Ref} : r ∈ l ↔ r ∈ s := h.perm.mem_iff

theorem isListable (h : Listing t s l) : s.isListable t = true := isListable_iff.mpr h.comparable

theorem nodup (h : Listing t s l) : l.Nodup := h.perm.nodup_iff.mpr s.nodup

theorem of_mem_iff (h : Listing t s l) (hmem : ∀ r, r ∈ s ↔ r ∈ o) : Listing t o l := by
  have hperm : s.toList.Perm o.toList := (List.perm_ext_iff_of_nodup s.nodup o.nodup).mpr hmem
  exact ⟨fun a ha b hb => h.comparable a ((hmem a).mpr ha) b ((hmem b).mpr hb),
    h.perm.trans hperm, h.ordered⟩

/-- All listings show the same, place by place. -/
theorem map_listingKey_eq (h : Listing t s l) (h' : Listing t s l') :
    l.map (Ref.listingKey t) = l'.map (Ref.listingKey t) := by
  have hkeys {l : List Ref} (h : Listing t s l) : (l.map (Ref.listingKey t)).Pairwise
      fun k k' => (Ref.compareKeys k k').isLE = true := List.pairwise_map.mpr h.ordered
  refine ((h.perm.trans h'.perm.symm).map _).eq_of_pairwise (fun k k' _ _ hle hle' => ?_)
    (hkeys h) (hkeys h')
  exact Std.LawfulEqCmp.eq_of_compare (Std.OrientedCmp.isLE_antisymm hle hle')

/-- Without ties there is no choice. -/
theorem eq_of_untied (h : Listing t s l) (h' : Listing t s l') (hs : Untied t s) : l = l' := by
  refine (h.perm.trans h'.perm.symm).eq_of_pairwise (fun a b ha hb hle hle' => ?_) h.ordered
    h'.ordered
  exact hs a (h.mem_iff.mp ha) b (h'.mem_iff.mp hb) (Std.OrientedCmp.isLE_antisymm hle hle')

/-- The listing is the one that the order of the references in it chooses. -/
theorem sorted_idxOf (h : Listing t s l) : s.sorted t l.idxOf = l := by
  have hperm : (s.sorted t l.idxOf).Perm l := (sortBy_perm _ s.toList).trans h.perm.symm
  have hplaces : l.Pairwise fun a b => l.idxOf a < l.idxOf b := by
    refine List.pairwise_iff_getElem.mpr fun i j hi hj hij => ?_
    rwa [h.nodup.idxOf_getElem, h.nodup.idxOf_getElem]
  refine hperm.eq_of_pairwise (fun a b _ _ hab hba => ?_) (sortBy_isLE_pairwise s.toList)
    ((h.ordered.and hplaces).imp fun ⟨hle, hlt⟩ => ?_)
  · exact Std.LawfulEqCmp.eq_of_compare (Std.OrientedCmp.isLE_antisymm hab hba)
  · refine Ordering.isLE_then_iff_and.mpr ⟨hle, .inr ?_⟩
    exact Ordering.isLE_then_iff_and.mpr
      ⟨by simp [compareOn, Nat.compare_eq_lt.mpr hlt], .inl (Nat.compare_eq_lt.mpr hlt)⟩

/-- Two references that are tied can change their places. -/
theorem swapped (h : Listing t s l) (ha : a ∈ s) (hb : b ∈ s) (hab : Ref.compare t a b = .eq) :
    Listing t s (l.map (Equiv.swap a b)) := by
  have htied (r : Ref) : Ref.compare t (Equiv.swap a b r) r = .eq := by
    rw [Equiv.swap_apply_def]
    split_ifs with hra hrb
    · rw [hra, Std.OrientedCmp.eq_comm]
      exact hab
    · rw [hrb]
      exact hab
    · exact Std.ReflCmp.compare_self
  have hsame (x y : Ref) :
      Ref.compare t (Equiv.swap a b x) (Equiv.swap a b y) = Ref.compare t x y :=
    (Std.TransCmp.congr_left (htied x)).trans (Std.TransCmp.congr_right (htied y))
  have hmem (r : Ref) : Equiv.swap a b r ∈ l ↔ r ∈ l := by
    rw [h.mem_iff, h.mem_iff, Equiv.swap_apply_def]
    split_ifs with hra hrb
    · simp [hra, ha, hb]
    · simp [hrb, ha, hb]
    · rfl
  have hperm : (l.map (Equiv.swap a b)).Perm l := by
    refine (List.perm_ext_iff_of_nodup (.map (Equiv.swap a b).injective h.nodup) h.nodup).mpr
      fun r => ?_
    rw [List.mem_map_of_involutive (Equiv.swap_apply_self a b), hmem]
  refine ⟨h.comparable, hperm.trans h.perm, List.pairwise_map.mpr (h.ordered.imp fun hle => ?_)⟩
  rw [hsame]
  exact hle

end Listing

/-- The listings of a set that has an order are what orders of tied references choose. -/
theorem listing_iff_sorted :
    Listing t s l ↔ s.isListable t = true ∧ ∃ ties, s.sorted t ties = l := by
  refine ⟨fun h => ⟨h.isListable, _, h.sorted_idxOf⟩, ?_⟩
  rintro ⟨h, ties, rfl⟩
  exact listing_sorted h ties

/-- The references of a set have a single listing exactly if the listing order tells them apart. -/
theorem listing_unique (h : s.isListable t = true) :
    (∀ l l', Listing t s l → Listing t s l' → l = l') ↔ Untied t s := by
  refine ⟨fun hunique a ha b hb hab => ?_, fun hs l l' hl hl' => hl.eq_of_untied hl' hs⟩
  have hl := listing_sorted h .byIdentity
  -- the listing with `a` and `b` exchanged is the same one, so `a` stands at the place of `b`
  have heq : (s.sorted t .byIdentity).map (Equiv.swap a b) = (s.sorted t .byIdentity).map id := by
    rw [List.map_id]
    exact hunique _ _ (hl.swapped ha hb hab) hl
  have hfix := List.map_inj_left.mp heq a (hl.mem_iff.mpr ha)
  rwa [Equiv.swap_apply_left, id, eq_comm] at hfix

/-- The comparison of references is reflexive, total and transitive, but it ties references that
differ in nothing but the identity of a variable at one position or of a type with one text.

A set has a listing exactly if it passes for listable, and all listings of the same references show
the same, place by place.  They are one and the same list exactly if no two of the references are
tied.  That list is then what a set of these references gives as its list, as its text and for the
references of one sort, in whatever order they came into the set. -/
theorem listing_unique_iff_untied (t : SymbolTable) :
    (∀ a, Ref.compare t a a = .eq) ∧
    (∀ a b, (Ref.compare t a b).isLE = true ∨ (Ref.compare t b a).isLE = true) ∧
    (∀ a b c, (Ref.compare t a b).isLE = true → (Ref.compare t b c).isLE = true →
      (Ref.compare t a c).isLE = true) ∧
    (∀ a b, Ref.compare t a b = .eq ↔ Ref.listingKey t a = Ref.listingKey t b) ∧
    (∀ a b, a = b ↔ Ref.compare t a b = .eq ∧ a.var? = b.var? ∧ a.type = b.type) ∧
    ∀ s o : RefSet, (∀ r, r ∈ s ↔ r ∈ o) →
      ((∃ l, Listing t s l) ↔ s.isListable t = true) ∧
      (∀ l l', Listing t s l → Listing t o l' →
        l.map (Ref.listingKey t) = l'.map (Ref.listingKey t)) ∧
      (s.isListable t = true →
        ((∀ l l', Listing t s l → Listing t o l' → l = l') ↔ Untied t s)) ∧
      (Untied t s → ∀ l, Listing t o l → ∀ ties, l = s.sorted t ties ∧
        s.texts? t ties = some (l.map (·.text t)) ∧
        ∀ k p, s.find t ties k p = l.filter (fun r => r.kind == k && p r) ∧
          (s.extract t ties k p).1 = l.filter fun r => r.kind == k && p r) := by
  refine ⟨fun a => Std.ReflCmp.compare_self, fun a b => ?_, fun a b c => Std.TransCmp.isLE_trans,
    fun a b => Ref.compare_eq_iff, fun a b => Ref.eq_iff_compare_eq,
    fun s o hmem => ⟨?_, ?_, fun hs => ?_, ?_⟩⟩
  · have hswap : Ref.compare t b a = (Ref.compare t a b).swap := Std.OrientedCmp.eq_swap
    rw [hswap]
    cases Ref.compare t a b <;> simp
  · exact ⟨fun ⟨l, hl⟩ => hl.isListable, fun hs => ⟨_, listing_sorted hs .byIdentity⟩⟩
  · intro l l' hl hl'
    exact hl.map_listingKey_eq (hl'.of_mem_iff fun r => (hmem r).symm)
  · rw [← listing_unique hs]
    refine forall₂_congr fun l l' => imp_congr_right fun _ => imp_congr_left ?_
    exact ⟨fun hl' => hl'.of_mem_iff fun r => (hmem r).symm, fun hl' => hl'.of_mem_iff hmem⟩
  · intro hs l hl ties
    have hl := hl.of_mem_iff fun r => (hmem r).symm
    obtain rfl := hl.eq_of_untied (listing_sorted hl.isListable ties) hs
    exact ⟨rfl, if_pos hl.isListable, fun k p => ⟨rfl, rfl⟩⟩

/-! ### Classes with one text, and classes without text -/

/-- A class `A` with two anonymous classes, and two classes declared in a method that no class
declares. -/
def namesakeTable : SymbolTable where
  packages := #[{ name := "p" }]
  classes := #[{ name := "Object" },
    { name := "A", owner := some (.package ⟨0⟩) },
    { kind := .anonymous, owner := some (.cls ⟨1⟩) },
    { kind := .anonymous, owner := some (.cls ⟨1⟩) },
    { name := "L", kind := .localClass, owner := some (.method ⟨0⟩) },
    { name := "M", kind := .localClass, owner := some (.method ⟨0⟩) }]
  methods := #[{ name := "loose" }]

/-- References to instances of the two anonymous classes are tied, and a set of them has two
listings.  References to instances of `L` and `M` cannot be compared, and a set of them has no
listing. -/
theorem namesakes_have_two_listings :
    (Ref.start (some ⟨2⟩) ≠ Ref.start (some ⟨3⟩) ∧
      Ref.compare namesakeTable (.start (some ⟨2⟩)) (.start (some ⟨3⟩)) = .eq ∧
      Listing namesakeTable (ofList [.start (some ⟨2⟩), .start (some ⟨3⟩)])
        [.start (some ⟨2⟩), .start (some ⟨3⟩)] ∧
      Listing namesakeTable (ofList [.start (some ⟨2⟩), .start (some ⟨3⟩)])
        [.start (some ⟨3⟩), .start (some ⟨2⟩)]) ∧
    ∀ l, ¬Listing namesakeTable (ofList [.start (some ⟨4⟩), .start (some ⟨5⟩)]) l := by
  have hlist := isListable_iff (t := namesakeTable)
    (s := ofList [.start (some ⟨2⟩), .start (some ⟨3⟩)]) |>.mp (by decide +kernel)
  refine ⟨⟨by decide, by decide +kernel, ⟨hlist, by decide, by decide +kernel⟩,
    ⟨hlist, by decide, by decide +kernel⟩⟩, fun l hl => ?_⟩
  exact absurd hl.isListable (by decide +kernel)

end RefSet

end EarlyEscape
