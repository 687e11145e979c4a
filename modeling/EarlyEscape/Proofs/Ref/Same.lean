import EarlyEscape.Ref.Set
import Mathlib.Data.List.Perm.Subperm

/-!
# Sets of references as sets

Two sets of references are the same exactly when they hold the same references, whatever their
order; and in the order of identity there is one list for each set.  The listing order agrees: sets
that hold the same references are listed in the same way, as long as references that come together
follow one order.

## Main results

* `RefSet.sameAs_iff` : the comparison of sets decides whether they hold the same references.
* `RefSet.canonical_eq_of_sameAs` : sets that hold the same references have the same list in the
  order of identity.
* `RefSet.filter_sorted_eq` : what sets have in common is listed in the same way.
-/

namespace EarlyEscape

/-! ### Sorted lists -/

section Sorting

variable {α : Type} {le : α → α → Bool}

theorem insertBy_pairwise (htotal : ∀ a b, le a b = true ∨ le b a = true)
    (htrans : ∀ a b c, le a b = true → le b c = true → le a c = true) (a : α) {l : List α}
    (h : l.Pairwise fun x y => le x y = true) :
    (insertBy le a l).Pairwise fun x y => le x y = true := by
  induction l with
  | nil => exact List.pairwise_singleton _ a
  | cons b l ih =>
    obtain ⟨hb, hl⟩ := List.pairwise_cons.mp h
    unfold insertBy
    split
    · next hab =>
      refine List.pairwise_cons.mpr ⟨fun c hc => ?_, h⟩
      rcases List.mem_cons.mp hc with rfl | hc
      · exact hab
      · exact htrans a b c hab (hb c hc)
    · next hab =>
      refine List.pairwise_cons.mpr ⟨fun c hc => ?_, ih hl⟩
      rcases List.mem_cons.mp ((insertBy_perm le a l).mem_iff.mp hc) with rfl | hc
      · exact (htotal b c).resolve_right hab
      · exact hb c hc

/-- The result of sorting by a total order is in order. -/
theorem sortBy_pairwise (htotal : ∀ a b, le a b = true ∨ le b a = true)
    (htrans : ∀ a b c, le a b = true → le b c = true → le a c = true) (l : List α) :
    (sortBy le l).Pairwise fun x y => le x y = true := by
  induction l with
  | nil => exact .nil
  | cons a l ih => exact insertBy_pairwise htotal htrans a ih

/-- The result of sorting by a comparison is in order. -/
theorem sortBy_isLE_pairwise {cmp : α → α → Ordering} [Std.TransCmp cmp] (l : List α) :
    (sortBy (fun a b => (cmp a b).isLE) l).Pairwise fun a b => (cmp a b).isLE = true := by
  refine sortBy_pairwise (fun a b => ?_) (fun a b c => Std.TransCmp.isLE_trans) l
  have hswap : cmp b a = (cmp a b).swap := Std.OrientedCmp.eq_swap
  rw [hswap]
  cases cmp a b <;> simp

/-- Sorting by an order that tells all elements apart does not depend on the order before. -/
theorem sortBy_eq_of_perm {cmp : α → α → Ordering} [Std.TransCmp cmp] [Std.LawfulEqCmp cmp]
    {l l' : List α} (h : l.Perm l') :
    sortBy (fun a b => (cmp a b).isLE) l = sortBy (fun a b => (cmp a b).isLE) l' := by
  refine List.Perm.eq_of_pairwise (fun a b _ _ hab hba => ?_) (sortBy_isLE_pairwise l)
    (sortBy_isLE_pairwise l') ((sortBy_perm _ l).trans (h.trans (sortBy_perm _ l').symm))
  exact Std.LawfulEqCmp.eq_of_compare (Std.OrientedCmp.isLE_antisymm hab hba)

end Sorting

/-! ### The order of identity -/

namespace Ref

instance : Std.TransCmp compareIdentity := by
  unfold compareIdentity
  infer_instance

theorem eq_of_typeKey {c c' : Option ClassId}
    (h : c.elim 0 (·.index + 1) = c'.elim 0 (·.index + 1)) : c = c' := by
  rcases c with - | ⟨⟨i⟩⟩ <;> rcases c' with - | ⟨⟨i'⟩⟩ <;> simp_all

theorem depth_of_kind_ne_expr {r : Ref} (h : r.kind ≠ .expr) : r.depth = 0 := by
  unfold depth
  split
  · next hrole => exact absurd (kind_of_role_expr hrole) h
  · rfl

theorem eq_of_roleKeys {a b : Role} {c d : Option ClassId} {i j : Indirections}
    (hkind : a.kind.code = b.kind.code) (hdepth : depth ⟨a, c, i⟩ = depth ⟨b, d, j⟩)
    (hvar : varKey ⟨a, c, i⟩ = varKey ⟨b, d, j⟩) : a = b := by
  cases a with
  | expr k => cases b <;> simp_all [Role.kind, Kind.code, depth]
  | var v =>
    obtain ⟨v⟩ := v
    cases b <;> simp_all [Role.kind, Kind.code, varKey, var?]
  | _ => cases b <;> simp_all [Role.kind, Kind.code]

/-- The order of identity tells all references apart. -/
theorem eq_of_compareIdentity {a b : Ref} (h : compareIdentity a b = .eq) : a = b := by
  obtain ⟨role, type, ⟨bits⟩⟩ := a
  obtain ⟨role', type', ⟨bits'⟩⟩ := b
  simp only [compareIdentity, compareLex_eq_eq, compareOn, Std.LawfulEqCmp.compare_eq_iff_eq] at h
  obtain ⟨hkind, hdepth, hvar, htype, hind⟩ := h
  obtain rfl : role = role' := eq_of_roleKeys hkind hdepth hvar
  obtain rfl : type = type' := eq_of_typeKey htype
  obtain rfl : bits = bits' := BitVec.eq_of_toNat_eq hind
  rfl

instance : Std.LawfulEqCmp compareIdentity := ⟨eq_of_compareIdentity⟩

/-! ### The listing order -/

theorem compare_eq (t : SymbolTable) : compare t =
    compareLex (compareOn (·.kind.code)) (compareLex (compareOn depth)
      (compareLex (compareOn (varPos t)) (compareLex (compareOn fun r => t.classText r.type)
        (compareOn (·.ind.bits.toNat))))) :=
  rfl

instance (t : SymbolTable) : Std.TransCmp (compare t) := by
  rw [compare_eq]
  infer_instance

instance (t : SymbolTable) (ties : TieOrder) : Std.TransCmp (compareListed t ties) :=
  inferInstanceAs
    (Std.TransCmp (compareLex (compare t) (compareLex (compareOn ties) compareIdentity)))

instance (t : SymbolTable) (ties : TieOrder) : Std.LawfulEqCmp (compareListed t ties) :=
  ⟨fun h => eq_of_compareIdentity (compareLex_eq_eq.mp (compareLex_eq_eq.mp h).2).2⟩

end Ref

namespace RefSet

theorem sameAs_iff {s o : RefSet} : s.sameAs o = true ↔ ∀ r, r ∈ s ↔ r ∈ o := by
  simp only [sameAs, Bool.and_eq_true, beq_iff_eq, List.all_eq_true, decide_eq_true_eq]
  constructor
  · rintro ⟨hsize, hsub⟩ r
    have hperm := (List.subperm_of_subset s.nodup hsub).perm_of_length_le (Nat.le_of_eq hsize.symm)
    exact hperm.mem_iff
  · intro h
    have hperm : s.toList.Perm o.toList := (List.perm_ext_iff_of_nodup s.nodup o.nodup).mpr h
    exact ⟨hperm.length_eq, fun r hr => (h r).mp hr⟩

theorem eq_empty_iff {s : RefSet} : s = empty ↔ ∀ r, r ∉ s :=
  RefSet.ext_iff.trans List.eq_nil_iff_forall_not_mem

theorem exists_mem_of_isEmpty {s : RefSet} (h : s.isEmpty = false) : ∃ r, r ∈ s :=
  List.isEmpty_eq_false_iff_exists_mem.mp h

theorem sameAs_self (s : RefSet) : s.sameAs s = true := sameAs_iff.mpr fun _ => Iff.rfl

@[simp] theorem sameAs_canonical {s o : RefSet} : s.canonical.sameAs o = s.sameAs o := by
  rw [Bool.eq_iff_iff, sameAs_iff, sameAs_iff]
  simp

@[simp] theorem isEmpty_canonical {s : RefSet} : s.canonical.isEmpty = s.isEmpty :=
  (sortBy_perm _ s.toList).isEmpty_eq

/-- Sets that hold the same references have one list in the order of identity. -/
theorem canonical_eq_of_sameAs {s o : RefSet} (h : s.sameAs o = true) :
    s.canonical = o.canonical := by
  have hperm : s.toList.Perm o.toList :=
    (List.perm_ext_iff_of_nodup s.nodup o.nodup).mpr (sameAs_iff.mp h)
  exact RefSet.ext (sortBy_eq_of_perm hperm)

theorem nodup_sorted (t : SymbolTable) (ties : TieOrder) (s : RefSet) : (s.sorted t ties).Nodup :=
  (sortBy_perm _ s.toList).nodup_iff.mpr s.nodup

/-- The references with a property are listed in the same way if the sets hold the same ones. -/
theorem filter_sorted_eq {t : SymbolTable} {ties : TieOrder} {s o : RefSet} {p : Ref → Bool}
    (h : ∀ r, p r = true → (r ∈ s ↔ r ∈ o)) :
    (s.sorted t ties).filter p = (o.sorted t ties).filter p := by
  have hperm : ((s.sorted t ties).filter p).Perm ((o.sorted t ties).filter p) := by
    refine (List.perm_ext_iff_of_nodup ((nodup_sorted t ties s).filter p)
      ((nodup_sorted t ties o).filter p)).mpr fun r => ?_
    simp only [List.mem_filter, mem_sorted]
    exact and_congr_left (h r)
  refine hperm.eq_of_pairwise (fun a b _ _ hab hba => ?_)
    ((sortBy_isLE_pairwise s.toList).filter p) ((sortBy_isLE_pairwise o.toList).filter p)
  exact Std.LawfulEqCmp.eq_of_compare (Std.OrientedCmp.isLE_antisymm hab hba)

theorem find_eq {t : SymbolTable} {ties : TieOrder} {s o : RefSet} {k : Ref.Kind}
    {p : Ref → Bool} (h : ∀ r, r.kind = k → p r = true → (r ∈ s ↔ r ∈ o)) :
    s.find t ties k p = o.find t ties k p := by
  refine filter_sorted_eq fun r hr => ?_
  rw [Bool.and_eq_true, beq_iff_eq] at hr
  exact h r hr.1 hr.2

theorem find_eq_of_mem_iff {t : SymbolTable} {ties : TieOrder} {s o : RefSet} {k : Ref.Kind}
    {p : Ref → Bool} (h : ∀ r, r ∈ s ↔ r ∈ o) : s.find t ties k p = o.find t ties k p :=
  find_eq fun r _ _ => h r

theorem find_eq_nil {t : SymbolTable} {ties : TieOrder} {s : RefSet} {k : Ref.Kind}
    {p : Ref → Bool} (h : ∀ r ∈ s, r.kind ≠ k) : s.find t ties k p = [] := by
  refine List.eq_nil_iff_forall_not_mem.mpr fun r hr => ?_
  obtain ⟨hmem, hkind, -⟩ := mem_find.mp hr
  exact h r hmem hkind

/-- References that the listing order tells apart are listed in one way, whatever the order of
others is. -/
theorem sorted_eq_of_untied {t : SymbolTable} {s : RefSet}
    (h : ∀ a ∈ s, ∀ b ∈ s, Ref.compare t a b = .eq → a = b) (ties ties' : TieOrder) :
    s.sorted t ties = s.sorted t ties' := by
  have hle {ties : TieOrder} : (s.sorted t ties).Pairwise fun a b =>
      (Ref.compare t a b).isLE = true := by
    refine (sortBy_isLE_pairwise s.toList).imp fun hle => ?_
    rw [Ref.compareListed, compareLex] at hle
    exact (Ordering.isLE_then_iff_and.mp hle).1
  have hperm : (s.sorted t ties).Perm (s.sorted t ties') :=
    (sortBy_perm _ s.toList).trans (sortBy_perm _ s.toList).symm
  refine hperm.eq_of_pairwise (fun a b ha hb hab hba => ?_) hle hle
  exact h a (mem_sorted.mp ha) b (mem_sorted.mp hb) (Std.OrientedCmp.isLE_antisymm hab hba)

theorem mem_extract {t : SymbolTable} {ties : TieOrder} {s : RefSet} {k : Ref.Kind} {r : Ref} :
    r ∈ (s.extract t ties k fun _ => true).2 ↔ r ∈ s ∧ r.kind ≠ k := by
  simp [extract]

/-- A part of a set that has an order has one. -/
theorem isListable_of_subset {t : SymbolTable} {s o : RefSet} (h : ∀ r ∈ o, r ∈ s)
    (hs : s.isListable t = true) : o.isListable t = true := by
  simp only [isListable, List.all_eq_true, Bool.or_eq_true, ← mem_def] at hs ⊢
  exact fun a ha => (hs a (h a ha)).imp id fun hall b hb => hall b (h b hb)

/-- The current results are what is lost with them. -/
theorem size_discardExprs_eq_iff {s : RefSet} {d : Int} :
    (s.discardExprs d).size = s.size ↔ ∀ r ∈ s, r.role ≠ .expr d := by
  simp only [size, discardExprs, discard, filter, List.length_filter_eq_length_iff, mem_def]
  refine forall₂_congr fun r _ => ?_
  simp [isExprAt]

/-- A result that is added makes no difference when the results are lost. -/
theorem discardExprs_insert {s : RefSet} {r : Ref} {d : Int} (h : r.role = .expr d) :
    (s.insert r).discardExprs d = s.discardExprs d := by
  have hr : isExprAt d r = true := isExprAt_iff.mpr h
  unfold insert
  split
  · rfl
  · exact RefSet.ext (by simp [discardExprs, discard, filter, hr])

theorem discardExprs_insertAll {s : RefSet} {rs : List Ref} {d : Int}
    (h : ∀ r ∈ rs, r.role = .expr d) : (s.insertAll rs).discardExprs d = s.discardExprs d := by
  induction rs generalizing s with
  | nil => rfl
  | cons r rs ih =>
    have hrest := fun x hx => h x (List.mem_cons_of_mem r hx)
    exact (ih hrest).trans (discardExprs_insert (h r List.mem_cons_self))

/-! ### Sets with further references -/

section Extra

variable {s o extra : RefSet} {d : Int} (hextra : ∀ r ∈ extra, r.kind ≠ .expr)
  (h : ∀ r, r ∈ s ↔ r ∈ o ∨ r ∈ extra)

include hextra h

/-- Further references that are no results stay further references. -/
theorem mem_discardExprs_or (r : Ref) :
    r ∈ s.discardExprs d ↔ r ∈ o.discardExprs d ∨ r ∈ extra := by
  simp only [mem_discardExprs, h, or_and_right]
  exact or_congr_right ⟨And.left, fun hr => ⟨hr, fun hrole =>
    hextra r hr (Ref.kind_of_role_expr hrole)⟩⟩

theorem mem_replaceExprs_or {f : Ref → Ref} (r : Ref) :
    r ∈ s.replaceExprs d (fun r => some (f r)) ↔
      r ∈ o.replaceExprs d (fun r => some (f r)) ∨ r ∈ extra := by
  have hsame : ∀ x, x.role = .expr d → (x ∈ s ↔ x ∈ o) := fun x hx =>
    (h x).trans (or_iff_left fun hmem => hextra x hmem (Ref.kind_of_role_expr hx))
  have himage : (∃ x ∈ s, x.role = .expr d ∧ f x = r) ↔ ∃ x ∈ o, x.role = .expr d ∧ f x = r :=
    exists_congr fun x => ⟨fun ⟨hx, hd, hf⟩ => ⟨(hsame x hd).mp hx, hd, hf⟩,
      fun ⟨hx, hd, hf⟩ => ⟨(hsame x hd).mpr hx, hd, hf⟩⟩
  have hrest := mem_discardExprs_or hextra h (d := d) r
  simp only [mem_discardExprs] at hrest
  rw [mem_replaceExprs, mem_replaceExprs, himage, hrest, or_assoc]

end Extra

end RefSet

end EarlyEscape
