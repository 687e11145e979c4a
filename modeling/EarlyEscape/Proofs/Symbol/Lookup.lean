import EarlyEscape.Proofs.Symbol.Supertypes

/-!
# The search for a method

The search for a method looks at a class before its supertypes, and leaves for the root class where
the superclasses end.  It finds a method exactly if the class is a subtype of one that declares it:
the search and the test for subtypes, two separate walks, meet the same classes.

## Main definitions

* `SymbolTable.DeclaresMethod` : a class itself declares a method under a name and a number of
  parameters.
* `SymbolTable.HasPlainArrays` : array types add nothing to the root class.

## Main results

* `SymbolTable.lookupMethod_eq` : the search as a recursion without bound.
* `SymbolTable.lookupMethod_finds_declared` : the search finds a method if a supertype declares one,
  those of the class before those of its superclass before those of its interfaces.
-/

namespace EarlyEscape.SymbolTable

variable {t : SymbolTable} {c b s : ClassId} {name : String} {arity : Nat} {m : MethodId}

/-- The class itself declares the method, which is no constructor, under the name and with the
number of parameters. -/
def DeclaresMethod (t : SymbolTable) (c : ClassId) (name : String) (arity : Nat) (m : MethodId) :
    Prop :=
  m ∈ (t.cls c).methods ∧ (t.method m).name = name ∧ (t.method m).isConstructor = false ∧
    (t.method m).arity = arity

/-- Array types declare no methods and have the root class as their only direct supertype. -/
def HasPlainArrays (t : SymbolTable) : Prop :=
  ∀ c, (t.cls c).isArray = true →
    (t.cls c).methods = [] ∧ (t.cls c).interfaces = [] ∧ (t.cls c).super = some .object

theorem hasPlainArrays_of_declared (h : ∀ i < t.classes.size, (t.cls ⟨i⟩).isArray = true →
    (t.cls ⟨i⟩).methods = [] ∧ (t.cls ⟨i⟩).interfaces = [] ∧ (t.cls ⟨i⟩).super = some .object) :
    t.HasPlainArrays := by
  intro c harray
  by_cases hc : c.index < t.classes.size
  · exact h c.index hc harray
  · rw [cls_eq_blank (Nat.not_lt.mp hc)] at harray
    cases harray

/-! ### The methods of one class -/

theorem declares_of_declaredMethod? (h : t.declaredMethod? c name arity = some m) :
    t.DeclaresMethod c name arity m := by
  have hm := List.find?_some h
  rw [Bool.and_eq_true, Bool.and_eq_true, beq_iff_eq, beq_iff_eq, Bool.not_eq_true'] at hm
  exact ⟨List.mem_of_find?_eq_some h, hm.1.1, hm.1.2, hm.2⟩

theorem declaredMethod?_eq_none_iff :
    t.declaredMethod? c name arity = none ↔ ∀ m, ¬t.DeclaresMethod c name arity m := by
  simp [declaredMethod?, DeclaresMethod, and_assoc]

/-! ### The search without bound -/

theorem lookupWithin_succ (t : SymbolTable) (n : Nat) (c : ClassId) (name : String) (arity : Nat) :
    t.lookupWithin (n + 1) c name arity =
      if (t.cls c).isArray then t.lookupWithin n .object name arity
      else ((t.declaredMethod? c name arity).or
        ((t.directSupers c).findSome? fun s => t.lookupWithin n s name arity)).or
          (if (t.cls c).super.isNone && c != .object then t.lookupWithin n .object name arity
            else none) := by
  rw [lookupWithin]
  cases t.declaredMethod? c name arity with
  | some m => rfl
  | none => cases (t.directSupers c).findSome? fun s => t.lookupWithin n s name arity <;> rfl

section Hierarchy

variable (h : t.IsHierarchy) (ha : t.HasPlainArrays)

include h ha

theorem isArray_object : (t.cls .object).isArray = false := by
  refine Bool.eq_false_iff.mpr fun harray => ?_
  exact h.not_extends_object (extends_iff.mpr (.inl (ha _ harray).2.2))

/-- For the root class the search is over at once. -/
theorem lookupWithin_object (n : Nat) :
    t.lookupWithin (n + 1) .object name arity = t.declaredMethod? .object name arity := by
  simp [lookupWithin_succ, isArray_object h ha, h.root]

/-- With a bound that is greater than the height of the class by two, the bound makes no
difference: one more step may lead to a class that is not declared, another one to the root
class. -/
theorem lookupWithin_eq {n m : Nat} (hn : t.height c + 2 ≤ n) (hm : t.height c + 2 ≤ m) :
    t.lookupWithin n c name arity = t.lookupWithin m c name arity := by
  induction n generalizing c m with
  | zero => omega
  | succ n ih =>
    obtain ⟨m, rfl⟩ := Nat.exists_eq_add_one.mpr (Nat.zero_lt_of_lt hm)
    have hobject : t.lookupWithin n .object name arity = t.lookupWithin m .object name arity := by
      obtain ⟨n, rfl⟩ := Nat.exists_eq_add_one.mpr (show 0 < n by omega)
      obtain ⟨m, rfl⟩ := Nat.exists_eq_add_one.mpr (show 0 < m by omega)
      rw [lookupWithin_object h ha, lookupWithin_object h ha]
    have hsupers : ((t.directSupers c).findSome? fun s => t.lookupWithin n s name arity) =
        (t.directSupers c).findSome? fun s => t.lookupWithin m s name arity := by
      rw [← List.head?_filterMap, ← List.head?_filterMap]
      refine congrArg List.head? (List.filterMap_congr fun s hs => ?_)
      have hlt := h.acyclic.height_lt hs
      exact ih (by omega) (by omega)
    rw [lookupWithin_succ, lookupWithin_succ, hobject, hsupers]

/-- The search as a recursion without bound: in the class, in its direct supertypes, and, for a
class without superclass, in the root class. -/
theorem lookupMethod_eq (c : ClassId) (name : String) (arity : Nat) :
    t.lookupMethod (some c) name arity =
      ((t.declaredMethod? c name arity).or
        ((t.directSupers c).findSome? fun s => t.lookupMethod (some s) name arity)).or
          (if (t.cls c).super.isNone && c != .object then t.lookupMethod (some .object) name arity
            else none) := by
  have hc := t.height_le c
  have hstep : t.lookupMethod (some c) name arity =
      t.lookupWithin (t.classes.size + 2 + 1) c name arity :=
    lookupWithin_eq h ha (by omega) (by omega)
  rw [hstep, lookupWithin_succ]
  split
  · next harray =>
    -- nothing is declared in an array type, and the search goes on in its superclass
    obtain ⟨hmethods, hinterfaces, hsuper⟩ := ha c harray
    simp [declaredMethod?, directSupers, hmethods, hinterfaces, hsuper, lookupMethod]
  · rfl

theorem lookupMethod_object :
    t.lookupMethod (some .object) name arity = t.declaredMethod? .object name arity :=
  lookupWithin_object h ha _

/-! ### What the search finds -/

/-- The search fails exactly if no supertype declares the method. -/
theorem lookupMethod_eq_none_iff : t.lookupMethod (some c) name arity = none ↔
    ∀ b, t.IsSubtype c b → ∀ m, ¬t.DeclaresMethod b name arity m := by
  induction c using h.acyclic.wellFounded.induction with
  | _ c ih =>
    rw [lookupMethod_eq h ha, Option.or_eq_none_iff, Option.or_eq_none_iff,
      List.findSome?_eq_none_iff]
    constructor
    · rintro ⟨⟨hown, hsupers⟩, hroot⟩ b hb
      have habove : ∀ s, t.Extends c s → t.IsSubtype s b →
          ∀ m, ¬t.DeclaresMethod b name arity m :=
        fun s hs hsb => (ih s hs).mp (hsupers s hs) b hsb
      rcases hb with rfl | hb
      · by_cases hsuper : (t.cls c).super.isNone && c != .object
        · rw [if_pos hsuper, lookupMethod_object h ha] at hroot
          exact declaredMethod?_eq_none_iff.mp hroot
        · rw [Bool.and_eq_true, not_and, bne_iff_ne, not_not] at hsuper
          cases hs : (t.cls c).super with
          | none =>
            obtain rfl := hsuper (by rw [hs]; rfl)
            exact declaredMethod?_eq_none_iff.mp hown
          | some s => exact habove s (extends_iff.mpr (.inl hs)) (.inl rfl)
      · rcases hb.cases_head with rfl | ⟨s, hs, hsb⟩
        · exact declaredMethod?_eq_none_iff.mp hown
        · exact habove s hs (.inr hsb)
    · intro hnone
      refine ⟨⟨declaredMethod?_eq_none_iff.mpr (hnone c (.refl t c)), fun s hs => ?_⟩, ?_⟩
      · exact (ih s hs).mpr fun b hsb => hnone b (.of_extends hs hsb)
      · split
        · rw [lookupMethod_object h ha]
          exact declaredMethod?_eq_none_iff.mpr (hnone .object (.inl rfl))
        · rfl

/-- A method that is found is declared by a supertype. -/
theorem exists_declares_of_lookupMethod (hfound : t.lookupMethod (some c) name arity = some m) :
    ∃ b, t.IsSubtype c b ∧ t.DeclaresMethod b name arity m := by
  induction c using h.acyclic.wellFounded.induction with
  | _ c ih =>
    rw [lookupMethod_eq h ha, Option.or_eq_some_iff, Option.or_eq_some_iff] at hfound
    rcases hfound with (hown | ⟨-, hsupers⟩) | ⟨-, hroot⟩
    · exact ⟨c, .refl t c, declares_of_declaredMethod? hown⟩
    · obtain ⟨s, hs, hfound⟩ := List.exists_of_findSome?_eq_some hsupers
      obtain ⟨b, hsb, hb⟩ := ih s hs hfound
      exact ⟨b, .of_extends hs hsb, hb⟩
    · split at hroot
      · rw [lookupMethod_object h ha] at hroot
        exact ⟨.object, .inl rfl, declares_of_declaredMethod? hroot⟩
      · cases hroot

theorem lookupMethod_of_declares (hm : t.DeclaresMethod c name arity m) :
    ∃ m', t.lookupMethod (some c) name arity = some m' ∧ t.DeclaresMethod c name arity m' := by
  cases hown : t.declaredMethod? c name arity with
  | none => exact absurd hm (declaredMethod?_eq_none_iff.mp hown m)
  | some m' =>
    refine ⟨m', ?_, declares_of_declaredMethod? hown⟩
    rw [lookupMethod_eq h ha, hown]
    rfl

/-- What the superclass has comes before all that the interfaces have. -/
theorem lookupMethod_of_super (hown : ∀ m, ¬t.DeclaresMethod c name arity m)
    (hs : (t.cls c).super = some s) (hfound : t.lookupMethod (some s) name arity = some m) :
    t.lookupMethod (some c) name arity = some m := by
  rw [lookupMethod_eq h ha, declaredMethod?_eq_none_iff.mpr hown, directSupers, hs]
  simp [hfound]

/-- The search for a method fails exactly if no supertype declares one under the name and with the
number of parameters; otherwise it finds one that a supertype declares.  That is one of the class
itself, if there is any, and if not, then one that the superclass declares or inherits, if there is
any. -/
theorem lookupMethod_finds_declared (c : ClassId) (name : String) (arity : Nat) :
    (t.lookupMethod (some c) name arity = none ↔
      ∀ b, t.isSubclass (some c) (some b) = true → ∀ m, ¬t.DeclaresMethod b name arity m) ∧
    (∀ m, t.lookupMethod (some c) name arity = some m →
      ∃ b, t.isSubclass (some c) (some b) = true ∧ t.DeclaresMethod b name arity m) ∧
    ((∃ m, t.DeclaresMethod c name arity m) →
      ∃ m, t.lookupMethod (some c) name arity = some m ∧ t.DeclaresMethod c name arity m) ∧
    ((∀ m, ¬t.DeclaresMethod c name arity m) → ∀ s, (t.cls c).super = some s →
      (∃ b m, t.isSubclass (some s) (some b) = true ∧ t.DeclaresMethod b name arity m) →
      ∃ b m, t.isSubclass (some s) (some b) = true ∧ t.DeclaresMethod b name arity m ∧
        t.lookupMethod (some c) name arity = some m ∧
        t.lookupMethod (some s) name arity = some m) := by
  simp only [isSubclass_iff h.acyclic]
  refine ⟨lookupMethod_eq_none_iff h ha, fun m => exists_declares_of_lookupMethod h ha,
    fun ⟨m, hm⟩ => lookupMethod_of_declares h ha hm, fun hown s hs ⟨b, m, hsb, hb⟩ => ?_⟩
  cases hfound : t.lookupMethod (some s) name arity with
  | none => exact absurd hb ((lookupMethod_eq_none_iff h ha).mp hfound b hsb m)
  | some m' =>
    obtain ⟨b', hsb', hb'⟩ := exists_declares_of_lookupMethod h ha hfound
    exact ⟨b', m', hsb', hb', lookupMethod_of_super h ha hown hs hfound, rfl⟩

end Hierarchy

theorem diamondTable_hasPlainArrays : diamondTable.HasPlainArrays :=
  hasPlainArrays_of_declared (by decide)

/-- In the diamond, where `J` and the superclass of `D` both have a method `run`, the search in `D`
finds that of the superclass; and no supertype of the array type declares a method `run`. -/
theorem lookupMethod_finds_declared_diamond :
    diamondTable.IsHierarchy ∧ diamondTable.HasPlainArrays ∧
    (∃ b m, diamondTable.isSubclass (some ⟨3⟩) (some b) = true ∧
      diamondTable.DeclaresMethod b "run" 0 m ∧
      diamondTable.lookupMethod (some ⟨4⟩) "run" 0 = some m) ∧
    ∀ b, diamondTable.isSubclass (some ⟨5⟩) (some b) = true →
      ∀ m, ¬diamondTable.DeclaresMethod b "run" 0 m := by
  have hfinds := lookupMethod_finds_declared diamondTable_isHierarchy diamondTable_hasPlainArrays
  obtain ⟨-, -, -, hsuper⟩ := hfinds ⟨4⟩ "run" 0
  obtain ⟨harray, -⟩ := hfinds ⟨5⟩ "run" 0
  refine ⟨diamondTable_isHierarchy, diamondTable_hasPlainArrays, ?_, harray.mp (by decide)⟩
  obtain ⟨b, m, hb, hm, hfound, -⟩ := hsuper (declaredMethod?_eq_none_iff.mp (by decide)) ⟨3⟩ rfl
    ⟨⟨3⟩, ⟨4⟩, by decide, declares_of_declaredMethod? (by decide)⟩
  exact ⟨b, m, hb, hm, hfound⟩

end EarlyEscape.SymbolTable
