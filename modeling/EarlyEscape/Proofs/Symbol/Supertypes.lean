import EarlyEscape.Symbol.Hierarchy
import Mathlib.Data.Set.Card
import Mathlib.Logic.Relation

/-!
# The order of subtypes

The walk from a class to its supertypes goes on as long as there are direct supertypes.  Where no
such walk leads back to a class that it has passed, it ends after at most as many steps as there are
declared classes.  The number of steps that the test for subtypes allows is thus never used up, and
the test decides the order of subtypes: to be the same class or below it, with the root class above
all others.

## Main definitions

* `SymbolTable.Extends` : one step to a direct supertype.
* `SymbolTable.IsSubtype` : the order of subtypes.
* `SymbolTable.Acyclic` : steps to direct supertypes never lead back.
* `SymbolTable.IsHierarchy` : in addition none leads away from the root class.
* `SymbolTable.height` : the number of declared classes that a walk to supertypes can pass.

## Main results

* `SymbolTable.Acyclic.wellFounded` : no walk to supertypes goes on for ever.
* `SymbolTable.isSubclass_eq` : the test for subtypes as a recursion without bound.
* `SymbolTable.isSubclass_decides_subtypes` : the test decides a partial order.
-/

namespace EarlyEscape.SymbolTable

variable {t : SymbolTable} {c b s : ClassId}

/-! ### Steps to supertypes -/

/-- The class `s` is the superclass of `c` or one of the interfaces that `c` names. -/
def Extends (t : SymbolTable) (c s : ClassId) : Prop := s ∈ t.directSupers c

/-- The class `b` is the root class, or it is reached from `c` by steps to direct supertypes. -/
def IsSubtype (t : SymbolTable) (c b : ClassId) : Prop :=
  b = .object ∨ Relation.ReflTransGen t.Extends c b

/-- Steps to direct supertypes lead from no class back to itself. -/
def Acyclic (t : SymbolTable) : Prop := ∀ c, ¬Relation.TransGen t.Extends c c

/-- Steps to direct supertypes lead from no class back to itself, and the root class has no direct
supertypes. -/
structure IsHierarchy (t : SymbolTable) : Prop where
  acyclic : t.Acyclic
  root : t.directSupers .object = []

theorem extends_iff : t.Extends c s ↔ (t.cls c).super = some s ∨ s ∈ (t.cls c).interfaces := by
  simp [Extends, directSupers]

theorem cls_eq_blank (h : t.classes.size ≤ c.index) : t.cls c = {} := by
  simp [cls, Array.getD, Nat.not_lt.mpr h]

/-- Only declared classes have direct supertypes. -/
theorem Extends.declared (h : t.Extends c s) : c.index < t.classes.size := by
  by_contra hsize
  simp [extends_iff, cls_eq_blank (Nat.not_lt.mp hsize)] at h

theorem IsSubtype.refl (t : SymbolTable) (c : ClassId) : t.IsSubtype c c := .inr .refl

theorem IsSubtype.of_extends (hs : t.Extends c s) (h : t.IsSubtype s b) : t.IsSubtype c b :=
  h.imp id fun h => .head hs h

/-- No way leads back if every step to a direct supertype leads to a smaller rank. -/
theorem acyclic_of_rank (rank : ClassId → Nat)
    (hrank : ∀ i < t.classes.size, ∀ s ∈ t.directSupers ⟨i⟩, rank s < rank ⟨i⟩) : t.Acyclic := by
  have hstep {c s : ClassId} (h : t.Extends c s) : rank s < rank c :=
    hrank c.index h.declared s h
  have hwalk {c s : ClassId} (h : Relation.TransGen t.Extends c s) : rank s < rank c := by
    induction h with
    | single h => exact hstep h
    | tail _ h ih => exact (hstep h).trans ih
  exact fun c h => (hwalk h).false

namespace IsHierarchy

theorem not_extends_object (h : t.IsHierarchy) : ¬t.Extends .object s := by
  simp [Extends, h.root]

/-- Only the root class is above itself. -/
theorem eq_object (h : t.IsHierarchy) (hb : t.IsSubtype .object b) : b = .object := by
  rcases hb with hb | hb
  · exact hb
  · rcases hb.cases_head with hb | ⟨s, hs, -⟩
    · exact hb.symm
    · exact absurd hs h.not_extends_object

theorem trans (h : t.IsHierarchy) {a : ClassId} (hab : t.IsSubtype a b) (hbc : t.IsSubtype b c) :
    t.IsSubtype a c := by
  rcases hab with rfl | hab
  · exact .inl (h.eq_object hbc)
  · exact hbc.imp id fun hbc => hab.trans hbc

theorem antisymm (h : t.IsHierarchy) (hcb : t.IsSubtype c b) (hbc : t.IsSubtype b c) : c = b := by
  rcases hcb with rfl | hcb
  · exact h.eq_object hbc
  rcases hbc with rfl | hbc
  · exact (h.eq_object (.inr hcb)).symm
  · -- a step away from `c` would close a circle
    rcases hcb.cases_head with hcb | ⟨s, hs, hsb⟩
    · exact hcb
    · exact absurd (.head' hs (hsb.trans hbc)) (h.acyclic c)

end IsHierarchy

/-! ### The length of walks to supertypes -/

/-- The number of declared classes that are reached from a class by steps to direct supertypes, the
class itself included. -/
noncomputable def height (t : SymbolTable) (c : ClassId) : Nat :=
  {i : Fin t.classes.size | Relation.ReflTransGen t.Extends c ⟨i⟩}.ncard

theorem height_le (t : SymbolTable) (c : ClassId) : t.height c ≤ t.classes.size := by
  have h := Set.ncard_le_card {i : Fin t.classes.size | Relation.ReflTransGen t.Extends c ⟨i⟩}
  rwa [Nat.card_fin] at h

namespace Acyclic

/-- Every step to a direct supertype leaves a class behind. -/
theorem height_lt (h : t.Acyclic) (hs : t.Extends c s) : t.height s < t.height c := by
  refine Set.ncard_lt_ncard ⟨fun i hi => .head hs hi, fun hsub => ?_⟩
  have hback : Relation.ReflTransGen t.Extends s c :=
    hsub (a := ⟨c.index, hs.declared⟩) .refl
  exact h c (.head' hs hback)

/-- No walk to supertypes goes on for ever. -/
theorem wellFounded (h : t.Acyclic) : WellFounded fun s c => t.Extends c s :=
  Subrelation.wf h.height_lt (measure t.height).wf

end Acyclic

/-! ### The test for subtypes -/

theorem inheritsWithin_succ (t : SymbolTable) (n : Nat) (c b : ClassId) :
    t.inheritsWithin (n + 1) c b =
      (c == b || b == .object || (t.directSupers c).any fun s => t.inheritsWithin n s b) :=
  rfl

/-- Beyond the height of the class the number of steps allowed makes no difference. -/
theorem Acyclic.inheritsWithin_eq (h : t.Acyclic) {n m : Nat} (hn : t.height c < n)
    (hm : t.height c < m) : t.inheritsWithin n c b = t.inheritsWithin m c b := by
  induction n generalizing c m with
  | zero => exact absurd hn (Nat.not_lt_zero _)
  | succ n ih =>
    obtain ⟨m, rfl⟩ := Nat.exists_eq_add_one.mpr (Nat.zero_lt_of_lt hm)
    have hsupers : ((t.directSupers c).any fun s => t.inheritsWithin n s b) =
        (t.directSupers c).any fun s => t.inheritsWithin m s b := by
      rw [Bool.eq_iff_iff, List.any_eq_true, List.any_eq_true]
      refine exists_congr fun s => and_congr_right fun hs => ?_
      have hlt := h.height_lt hs
      rw [ih (m := m) (by omega) (by omega)]
    rw [inheritsWithin_succ, inheritsWithin_succ, hsupers]

/-- The test for subtypes as a recursion without bound: the class itself and the root class pass,
and whatever passes for a direct supertype. -/
theorem isSubclass_eq (h : t.Acyclic) (c b : ClassId) :
    t.isSubclass (some c) (some b) =
      (c == b || b == .object ||
        (t.directSupers c).any fun s => t.isSubclass (some s) (some b)) := by
  have hc := t.height_le c
  calc t.isSubclass (some c) (some b)
      = t.inheritsWithin (t.classes.size + 1 + 1) c b :=
        h.inheritsWithin_eq (by omega) (by omega)
    _ = _ := inheritsWithin_succ t _ c b

theorem isSubclass_iff (h : t.Acyclic) :
    t.isSubclass (some c) (some b) = true ↔ t.IsSubtype c b := by
  constructor
  · intro hsub
    induction c using h.wellFounded.induction with
    | _ c ih =>
      rw [isSubclass_eq h, Bool.or_eq_true, Bool.or_eq_true, beq_iff_eq, beq_iff_eq,
        List.any_eq_true] at hsub
      obtain (rfl | rfl) | ⟨s, hs, hsub⟩ := hsub
      · exact .refl t c
      · exact .inl rfl
      · exact .of_extends hs (ih s hs hsub)
  · rintro (rfl | hreach)
    · rw [isSubclass_eq h, beq_self_eq_true, Bool.or_true, Bool.true_or]
    · induction hreach using Relation.ReflTransGen.head_induction_on with
      | refl => rw [isSubclass_eq h, beq_self_eq_true, Bool.true_or, Bool.true_or]
      | head hs _ ih =>
        rw [isSubclass_eq h, Bool.or_eq_true, List.any_eq_true]
        exact .inr ⟨_, hs, ih⟩

/-- The test for subtypes passes exactly for the root class and for the classes that are reached by
steps to direct supertypes.  It is a partial order.  The recursion behind it descends along a
well-founded relation, and it has the same result with every number of steps that is greater than
the number of declared classes. -/
theorem isSubclass_decides_subtypes (h : t.IsHierarchy) :
    (∀ c b, t.isSubclass (some c) (some b) = true ↔
      b = .object ∨ Relation.ReflTransGen t.Extends c b) ∧
    (∀ c, t.isSubclass (some c) (some c) = true) ∧
    (∀ a b c, t.isSubclass (some a) (some b) = true → t.isSubclass (some b) (some c) = true →
      t.isSubclass (some a) (some c) = true) ∧
    (∀ c b, t.isSubclass (some c) (some b) = true → t.isSubclass (some b) (some c) = true →
      c = b) ∧
    (WellFounded fun s c => t.Extends c s) ∧
    (∀ c b, t.isSubclass (some c) (some b) = (c == b || b == .object ||
      (t.directSupers c).any fun s => t.isSubclass (some s) (some b))) ∧
    ∀ n > t.classes.size, ∀ c b, t.inheritsWithin n c b = t.isSubclass (some c) (some b) := by
  have hiff {c b : ClassId} := isSubclass_iff h.acyclic (c := c) (b := b)
  refine ⟨fun c b => hiff, fun c => hiff.mpr (.refl t c), fun a b c hab hbc => ?_,
    fun c b hcb hbc => ?_, h.acyclic.wellFounded, isSubclass_eq h.acyclic, fun n hn c b => ?_⟩
  · exact hiff.mpr (h.trans (hiff.mp hab) (hiff.mp hbc))
  · exact h.antisymm (hiff.mp hcb) (hiff.mp hbc)
  · have hc := t.height_le c
    exact h.acyclic.inheritsWithin_eq (by omega) (by omega)

/-! ### A diamond -/

/-- The root class; an interface `I` and an interface `J` that extends it; a class `B` that
implements `I`, and a class `D` that extends `B` and implements `J` and `I`; the array type of `B`.
All but `D` and the array type declare methods. -/
def diamondTable : SymbolTable where
  classes := #[{ name := "Object", methods := [⟨0⟩] },
    { name := "I", flags := .of [.interface], methods := [⟨1⟩] },
    { name := "J", flags := .of [.interface], interfaces := [⟨1⟩], methods := [⟨2⟩, ⟨3⟩] },
    { name := "B", super := some .object, interfaces := [⟨1⟩], methods := [⟨4⟩] },
    { name := "D", super := some ⟨3⟩, interfaces := [⟨2⟩, ⟨1⟩] },
    { name := "B[]", kind := .array, super := some .object, elem := some ⟨3⟩ }]
  methods := #[{ name := "toString", owner := some .object }, { name := "run", owner := some ⟨1⟩ },
    { name := "run", owner := some ⟨2⟩ }, { name := "stop", owner := some ⟨2⟩ },
    { name := "run", owner := some ⟨3⟩ }]

theorem diamondTable_isHierarchy : diamondTable.IsHierarchy :=
  ⟨acyclic_of_rank (·.index) (by decide), by decide⟩

/-- In the diamond `I` is reached from `D`, and `J` is not reached from `B`. -/
theorem isSubclass_decides_subtypes_diamond :
    diamondTable.IsHierarchy ∧ Relation.ReflTransGen diamondTable.Extends ⟨4⟩ ⟨1⟩ ∧
      ¬Relation.ReflTransGen diamondTable.Extends ⟨3⟩ ⟨2⟩ := by
  obtain ⟨hiff, -⟩ := isSubclass_decides_subtypes diamondTable_isHierarchy
  refine ⟨diamondTable_isHierarchy, ?_, fun h => ?_⟩
  · exact ((hiff ⟨4⟩ ⟨1⟩).mp (by decide)).resolve_left (by decide)
  · exact absurd ((hiff ⟨3⟩ ⟨2⟩).mpr (.inr h)) (by decide)

end EarlyEscape.SymbolTable
