import EarlyEscape.Proofs.Ref.Same
import EarlyEscape.Trail
import Mathlib.Data.List.Sort

/-!
# Collapsed trails

Trails are collapsed in one pass over the sorted list, in which each trail is compared with the one
kept last only.  That is enough: in the lexicographic order the extensions of a trail stand
together, right after it.  What remains are the trails that extend no other one, so the result
depends on the set of the trails alone.

## Main definitions

* `Trail.Collapsed` : a list holds the minimal trails of another one, in order.

## Main results

* `Trail.prefix_of_between` : between a trail and an extension of it there are only extensions.
* `Trail.Collapsed.mem_iff` : the trails that remain are those that extend no other one.
* `Trail.collapse_keeps_minimal` : the specification of `Trail.collapse`.
-/

namespace EarlyEscape.Trail

/-! ### The order -/

theorem compare_eq (a b : Trail) : compare a b = List.compareLex Ord.compare a b := by
  fun_induction compare a b with
  | case1 | case2 | case3 => rfl
  | case4 p t q o ih => rw [List.compareLex_cons_cons, ih]

instance : Std.TransCmp compare := by
  rw [show compare = List.compareLex Ord.compare from funext₂ compare_eq]
  infer_instance

instance : Std.LawfulEqCmp compare := by
  rw [show compare = List.compareLex Ord.compare from funext₂ compare_eq]
  infer_instance

theorem startsWith_iff {t p : Trail} : t.startsWith p = true ↔ p <+: t := List.isPrefixOf_iff_prefix

/-- A trail comes before its extensions. -/
theorem isLE_of_prefix {p t : Trail} (h : p <+: t) : (compare p t).isLE = true := by
  induction p generalizing t with
  | nil => cases t <;> rfl
  | cons x p ih =>
    obtain ⟨t, rfl, ht⟩ := List.cons_prefix_iff.mp h
    have hx : Ord.compare x x = .eq := Std.ReflCmp.compare_self
    rw [compare, hx]
    exact ih ht

/-- What stands between a trail and an extension of it is an extension, too. -/
theorem prefix_of_between {p s t : Trail} (h : p <+: t) (hps : (compare p s).isLE = true)
    (hst : (compare s t).isLE = true) : p <+: s := by
  induction p generalizing s t with
  | nil => exact List.nil_prefix
  | cons x p ih =>
    obtain ⟨t, rfl, ht⟩ := List.cons_prefix_iff.mp h
    cases s with
    | nil => cases hps
    | cons y s =>
      rw [compare, Ordering.isLE_then_iff_and] at hps hst
      -- the heads agree, as each comes before the other
      have hxy : Ord.compare x y = .eq := Std.OrientedCmp.isLE_antisymm hps.1 hst.1
      obtain rfl : x = y := Std.LawfulEqCmp.eq_of_compare hxy
      rw [hxy] at hps hst
      exact (List.prefix_cons_inj x).mpr
        (ih ht (hps.2.resolve_left nofun) (hst.2.resolve_left nofun))

/-! ### One pass over a sorted list -/

theorem mem_of_mem_keepFrom {last : Option Trail} {ts : List Trail} {t : Trail}
    (h : t ∈ keepFrom last ts) : t ∈ ts ∧ t ≠ [] := by
  fun_induction keepFrom last ts with
  | case1 => cases h
  | case2 last t' ts hskip ih => exact ⟨List.mem_cons_of_mem _ (ih h).1, (ih h).2⟩
  | case3 last t' ts hkeep ih =>
    rcases List.mem_cons.mp h with rfl | h
    · refine ⟨List.mem_cons_self, ?_⟩
      rintro rfl
      exact hkeep rfl
    · exact ⟨List.mem_cons_of_mem _ (ih h).1, (ih h).2⟩

section Pass

variable {last : Option Trail} {ts : List Trail}

/-- Every trail that is not empty extends one that is kept, or the one kept last before. -/
theorem exists_prefix_keepFrom {t : Trail} (ht : t ∈ ts) (hne : t ≠ []) :
    ∃ p, (p ∈ last ∨ p ∈ keepFrom last ts) ∧ p <+: t := by
  fun_induction keepFrom last ts with
  | case1 => cases ht
  | case2 last t' ts hskip ih =>
    rcases List.mem_cons.mp ht with rfl | ht
    · rw [Bool.or_eq_true, List.isEmpty_iff, Option.any_eq_true] at hskip
      obtain ⟨p, hp, hpre⟩ := hskip.resolve_left hne
      exact ⟨p, .inl hp, startsWith_iff.mp hpre⟩
    · exact ih ht
  | case3 last t' ts hkeep ih =>
    rcases List.mem_cons.mp ht with rfl | ht
    · exact ⟨t, .inr List.mem_cons_self, List.prefix_rfl⟩
    · obtain ⟨p, hp, hpre⟩ := ih ht
      rcases hp with hp | hp
      · exact ⟨p, .inr (Option.mem_some_iff.mp hp ▸ List.mem_cons_self), hpre⟩
      · exact ⟨p, .inr (List.mem_cons_of_mem _ hp), hpre⟩

/-- No trail that is kept extends the one kept last before. -/
theorem not_prefix_of_mem_keepFrom
    (hts : ts.Pairwise fun a b => (compare a b).isLE = true)
    (hlast : ∀ p ∈ last, ∀ t ∈ ts, (compare p t).isLE = true) {p t : Trail} (hp : p ∈ last)
    (ht : t ∈ keepFrom last ts) : ¬p <+: t := by
  fun_induction keepFrom last ts with
  | case1 => cases ht
  | case2 last t' ts hskip ih =>
    exact ih (List.pairwise_cons.mp hts).2
      (fun p hp t ht => hlast p hp t (List.mem_cons_of_mem _ ht)) hp ht
  | case3 last t' ts hkeep ih =>
    rw [Bool.or_eq_true, not_or] at hkeep
    have hkept : ¬p <+: t' := fun hpre =>
      hkeep.2 (Option.any_eq_true _ _ |>.mpr ⟨p, hp, startsWith_iff.mpr hpre⟩)
    rcases List.mem_cons.mp ht with rfl | ht
    · exact hkept
    · -- `t'` stands between the two
      intro hpre
      have hmem := (mem_of_mem_keepFrom ht).1
      exact hkept (prefix_of_between hpre (hlast p hp t' List.mem_cons_self)
        ((List.pairwise_cons.mp hts).1 t hmem))

/-- Of two trails that are kept, the first comes before the second, which does not extend it. -/
theorem keepFrom_pairwise (hts : ts.Pairwise fun a b => (compare a b).isLE = true) :
    (keepFrom last ts).Pairwise fun a b => compare a b = .lt ∧ ¬a <+: b := by
  fun_induction keepFrom last ts with
  | case1 => exact .nil
  | case2 last t ts hskip ih => exact ih (List.pairwise_cons.mp hts).2
  | case3 last t ts hkeep ih =>
    obtain ⟨hle, hts⟩ := List.pairwise_cons.mp hts
    refine List.pairwise_cons.mpr ⟨fun b hb => ?_, ih hts⟩
    have hpre : ¬t <+: b := by
      refine not_prefix_of_mem_keepFrom hts ?_ rfl hb
      rintro _ ⟨⟩
      exact hle
    refine ⟨?_, hpre⟩
    rcases Ordering.isLE_iff_eq_lt_or_eq_eq.mp (hle b (mem_of_mem_keepFrom hb).1) with hlt | heq
    · exact hlt
    · exact absurd (Std.LawfulEqCmp.eq_of_compare heq ▸ List.prefix_rfl) hpre

end Pass

/-! ### The trails that remain -/

/-- The list `kept` holds the minimal trails of `ts`: it is strictly increasing, holds only trails
of `ts` that are not empty, none of which extends another, and every trail of `ts` that is not empty
extends exactly one of them. -/
structure Collapsed (ts kept : List Trail) : Prop where
  increasing : kept.Pairwise fun a b => compare a b = .lt
  given : ∀ t ∈ kept, t ∈ ts ∧ t ≠ []
  apart : ∀ a ∈ kept, ∀ b ∈ kept, a <+: b → a = b
  covers : ∀ t ∈ ts, t ≠ [] → ∃! p, p ∈ kept ∧ p <+: t

theorem collapsed_collapse (ts : List Trail) : Collapsed ts (collapse ts) := by
  have hsorted : (sortBy (fun a b => (compare a b).isLE) ts).Pairwise
      fun a b => (compare a b).isLE = true := sortBy_isLE_pairwise ts
  have hpairwise : (collapse ts).Pairwise fun a b => compare a b = .lt ∧ ¬a <+: b :=
    keepFrom_pairwise hsorted
  have hapart : ∀ a ∈ collapse ts, ∀ b ∈ collapse ts, a <+: b → a = b := by
    refine List.Pairwise.forall_of_forall_of_flip (R := fun a b => a <+: b → a = b)
      (fun _ _ _ => rfl) (hpairwise.imp fun h hpre => absurd hpre h.2) (hpairwise.imp ?_)
    rintro a b ⟨hlt, -⟩ hpre
    have hle := isLE_of_prefix hpre
    rw [Std.OrientedCmp.gt_of_lt hlt] at hle
    cases hle
  refine ⟨hpairwise.imp And.left, fun t ht => ?_, hapart, fun t ht hne => ?_⟩
  · have h := mem_of_mem_keepFrom ht
    exact ⟨mem_sortBy.mp h.1, h.2⟩
  · obtain ⟨p, hp, hpre⟩ : ∃ p, (p ∈ none ∨ p ∈ collapse ts) ∧ p <+: t :=
      exists_prefix_keepFrom (mem_sortBy.mpr ht) hne
    have hp : p ∈ collapse ts := hp.resolve_left nofun
    refine ⟨p, ⟨hp, hpre⟩, fun q hq => ?_⟩
    rcases List.prefix_or_prefix_of_prefix hq.2 hpre with h | h
    · exact hapart q hq.1 p hp h
    · exact (hapart p hp q hq.1 h).symm

/-- The trails that remain are those that extend no other trail. -/
theorem Collapsed.mem_iff {ts kept : List Trail} (h : Collapsed ts kept) {t : Trail} :
    t ∈ kept ↔ t ∈ ts ∧ t ≠ [] ∧ ∀ p ∈ ts, p ≠ [] → p <+: t → p = t := by
  constructor
  · intro ht
    obtain ⟨hmem, hne⟩ := h.given t ht
    refine ⟨hmem, hne, fun p hp hpne hpre => ?_⟩
    obtain ⟨q, ⟨hq, hqp⟩, -⟩ := h.covers p hp hpne
    obtain rfl : q = t := h.apart q hq t ht (hqp.trans hpre)
    exact hpre.eq_of_length_le hqp.length_le
  · rintro ⟨hmem, hne, hmin⟩
    obtain ⟨q, ⟨hq, hqt⟩, -⟩ := h.covers t hmem hne
    obtain ⟨hqmem, hqne⟩ := h.given q hq
    exact hmin q hqmem hqne hqt ▸ hq

/-- Trails that hold the same minimal ones are collapsed to the same list. -/
theorem Collapsed.eq {ts ts' kept kept' : List Trail} (h : Collapsed ts kept)
    (h' : Collapsed ts' kept') (hmem : ∀ t, t ∈ ts ↔ t ∈ ts') : kept = kept' := by
  have hirrefl : Std.Irrefl fun a b : Trail => compare a b = .lt :=
    ⟨fun a h => nomatch Std.ReflCmp.compare_self.symm.trans h⟩
  have hantisymm : Std.Antisymm fun a b : Trail => compare a b = .lt :=
    ⟨fun a b hab hba => nomatch (Std.OrientedCmp.gt_of_lt hab).symm.trans hba⟩
  refine h.increasing.eq_of_mem_iff h'.increasing fun t => ?_
  simp only [h.mem_iff, h'.mem_iff, hmem]

/-- The trails that remain depend on the set of the trails alone. -/
theorem collapse_eq_of_mem_iff {ts ts' : List Trail} (h : ∀ t, t ∈ ts ↔ t ∈ ts') :
    collapse ts = collapse ts' :=
  (collapsed_collapse ts).eq (collapsed_collapse ts') h

/-- The result of `collapse` is strictly increasing, it holds only trails that were given and are
not empty, none of which extends another, and every trail that was given and is not empty extends
exactly one of them.  It depends on the set of the trails alone, and collapsing it again changes
nothing. -/
theorem collapse_keeps_minimal (ts : List Trail) :
    Collapsed ts (collapse ts) ∧
      (∀ ts' : List Trail, (∀ t, t ∈ ts' ↔ t ∈ ts) → collapse ts' = collapse ts) ∧
      collapse (collapse ts) = collapse ts := by
  have h := collapsed_collapse ts
  have hself : Collapsed (collapse ts) (collapse ts) := by
    refine ⟨h.increasing, fun t ht => ⟨ht, (h.given t ht).2⟩, h.apart, fun t ht _ => ?_⟩
    exact ⟨t, ⟨ht, List.prefix_rfl⟩, fun p hp => h.apart p hp.1 t ht hp.2⟩
  exact ⟨h, fun ts' => collapse_eq_of_mem_iff,
    (collapsed_collapse (collapse ts)).eq hself fun _ => Iff.rfl⟩

/-- Of a trail and its extensions the trail remains, and empty trails do not. -/
example : collapse [[3, 1], [], [3], [-2, 0], [3, 1], [3]] = [[-2, 0], [3]] := by decide

end EarlyEscape.Trail
