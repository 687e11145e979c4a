import EarlyEscape.Catalog.Basic
import EarlyEscape.Proofs.Symbol.Supertypes

/-!
# Overriding

A method replaces another one in a class if the declarations of both say so: their modifiers, names
and parameter types, the place of their classes in the hierarchy, and for a method that is neither
public nor protected the packages of the classes.  A call of a method outside the unit is led into a
body of the unit on the strength of that.

Whether the replacing method is private is not looked at, so that a private method passes for an
override.

## Main definitions

* `SymbolTable.Replaces` : what it takes for a method to override another one in a class.

## Main results

* `Catalog.overriding_iff_replaces` : this is what decides about overriding, and all entries that
  calls are led to satisfy it.
* `Catalog.private_method_overrides` : a private method passes.
-/

namespace EarlyEscape

namespace SymbolTable

variable {t : SymbolTable} {m other : MethodId} {origin c b : ClassId}

/-- The packages of the two classes can be told and are the same. -/
def SharePackage (t : SymbolTable) (c b : ClassId) : Prop :=
  t.isStray c = false ∧ t.isStray b = false ∧ t.packageOf? c = t.packageOf? b

/-- What it takes for the method `m` to override the method `other` as a member of `origin`.  The
method `m` itself may be private. -/
structure Replaces (t : SymbolTable) (m other : MethodId) (origin : ClassId) : Prop where
  notConstructors : (t.method m).isConstructor = false ∧ (t.method other).isConstructor = false
  notStatic : (t.method m).isStatic = false ∧ (t.method other).isStatic = false
  notPrivate : (t.method other).isPrivate = false
  sameName : (t.method m).name = (t.method other).name
  sameParams : t.paramTypes m = t.paramTypes other
  /-- The class `origin` inherits from the class of `m`, and that one from the class of `other`,
  whose package it shares if `other` is neither public nor protected. -/
  inherited : ∃ c b, (t.method m).owner = some c ∧ (t.method other).owner = some b ∧
    t.IsSubtype origin c ∧ t.IsSubtype c b ∧
    ((t.method other).isPublicOrProtected = true ∨ t.SharePackage c b)

theorem sameSignature_iff : t.sameSignature m other = true ↔
    ((t.method m).isConstructor = false ∧ (t.method other).isConstructor = false) ∧
    ((t.method m).isStatic = false ∧ (t.method other).isStatic = false) ∧
    (t.method other).isPrivate = false ∧ (t.method m).name = (t.method other).name ∧
    t.paramTypes m = t.paramTypes other := by
  simp only [sameSignature, Bool.and_eq_true, Bool.not_eq_true', beq_iff_eq, and_assoc]

/-- A method without class overrides no other method and is overridden by none. -/
theorem overrides?_of_owner_eq_none (hne : m ≠ other)
    (h : (t.method m).owner = none ∨ (t.method other).owner = none) :
    t.overrides? m other (some origin) = some false := by
  have hsub : t.isSubclass (t.method m).owner (t.method other).owner = false := by
    rcases h with h | h <;> rw [h]
    · rfl
    · cases (t.method m).owner <;> rfl
  simp [overrides?, dependsOnPackages, overrides, hsub, hne]

/-- What decides about overriding between two methods of classes, in the order in which it is looked
at: packages come last, and cannot always be told. -/
theorem overrides?_of_ne (hne : m ≠ other) (hm : (t.method m).owner = some c)
    (hother : (t.method other).owner = some b) :
    t.overrides? m other (some origin) =
      if t.sameSignature m other && t.isSubclass (some c) (some b) &&
          t.isSubclass (some origin) (some c) then
        if (t.method other).isPublicOrProtected then some true
        else if t.isStray c || t.isStray b then none
        else some (t.packageOf? c == t.packageOf? b)
      else some false := by
  simp only [overrides?, dependsOnPackages, overrides, visibleFor, hm, hother,
    beq_eq_false_iff_ne.mpr hne, bne, Bool.not_false, Bool.true_and, Bool.false_or,
    Option.any_some, Option.bind_some]
  cases t.sameSignature m other && t.isSubclass (some c) (some b) &&
    t.isSubclass (some origin) (some c) <;> cases (t.method other).isPublicOrProtected <;> simp

/-- Overriding as a condition on the two declarations. -/
theorem overrides?_eq_some_true_iff (h : t.Acyclic) :
    t.overrides? m other (some origin) = some true ↔ m = other ∨ t.Replaces m other origin := by
  by_cases hne : m = other
  · simp [overrides?, dependsOnPackages, overrides, hne]
  rw [or_iff_right hne]
  constructor
  · intro hover
    have howners : (t.method m).owner ≠ none ∧ (t.method other).owner ≠ none := by
      by_contra hnone
      rw [not_and_or, not_not, not_not] at hnone
      rw [overrides?_of_owner_eq_none hne hnone] at hover
      cases hover
    obtain ⟨c, hc⟩ := Option.ne_none_iff_exists'.mp howners.1
    obtain ⟨b, hb⟩ := Option.ne_none_iff_exists'.mp howners.2
    rw [overrides?_of_ne hne hc hb] at hover
    split at hover
    · next hsub =>
      rw [Bool.and_eq_true, Bool.and_eq_true, sameSignature_iff, isSubclass_iff h,
        isSubclass_iff h] at hsub
      obtain ⟨⟨⟨hctor, hstatic, hprivate, hname, hparams⟩, hcb⟩, hoc⟩ := hsub
      refine ⟨hctor, hstatic, hprivate, hname, hparams, c, b, hc, hb, hoc, hcb, ?_⟩
      split at hover
      · next hpublic => exact .inl hpublic
      · split at hover
        · cases hover
        · next hstray =>
          rw [Bool.or_eq_true, not_or, Bool.not_eq_true, Bool.not_eq_true] at hstray
          exact .inr ⟨hstray.1, hstray.2, beq_iff_eq.mp (Option.some.inj hover)⟩
    · cases hover
  · rintro ⟨hctor, hstatic, hprivate, hname, hparams, c, b, hc, hb, hoc, hcb, hvisible⟩
    have hsig := sameSignature_iff.mpr ⟨hctor, hstatic, hprivate, hname, hparams⟩
    rw [overrides?_of_ne hne hc hb, hsig, (isSubclass_iff h).mpr hcb, (isSubclass_iff h).mpr hoc]
    rcases hvisible with hpublic | ⟨hstrayc, hstrayb, hpackage⟩
    · simp [hpublic]
    · simp [hstrayc, hstrayb, hpackage]

end SymbolTable

namespace Catalog

variable {t : SymbolTable}

/-- A method overrides itself, and another one exactly if it replaces it.  A call of `m` on the
class `owner` is only ever led to an entry of `m` itself or of a method that replaces `m`, and in
both cases `owner` declares that method. -/
theorem overriding_iff_replaces (h : t.Acyclic) :
    (∀ m other origin,
      t.overrides? m other (some origin) = some true ↔ m = other ∨ t.Replaces m other origin) ∧
    ∀ (cat : Catalog) m owner e, cat.overrider? t (some m) (some owner) = .ok (some e) →
      ∃ s, (s, e) ∈ cat.entries ∧ (t.method s).owner = some owner ∧
        (s = m ∨ t.Replaces s m owner) := by
  refine ⟨fun _ _ _ => SymbolTable.overrides?_eq_some_true_iff h, fun cat m owner e hfound => ?_⟩
  obtain ⟨s, hs, hover⟩ := exists_of_firstOverrider hfound
  obtain ⟨hmem, hcandidate⟩ := List.mem_filter.mp hs
  rw [Bool.and_eq_true, beq_iff_eq] at hcandidate
  exact ⟨s, hmem, hcandidate.1, (SymbolTable.overrides?_eq_some_true_iff h).mp hover⟩

/-! ### A private method -/

/-- The root class, a class `A` and two classes `B` and `C` that extend it, with a method `m` in
each of the three.  That of `B` is private, the others are public. -/
def concealingTable : SymbolTable where
  packages := #[{ name := "p" }]
  classes := #[{ name := "Object" },
    { name := "A", owner := some (.package ⟨0⟩), super := some .object, methods := [⟨0⟩] },
    { name := "B", owner := some (.package ⟨0⟩), super := some ⟨1⟩, methods := [⟨1⟩] },
    { name := "C", owner := some (.package ⟨0⟩), super := some ⟨1⟩, methods := [⟨2⟩] }]
  methods := #[{ name := "m", owner := some ⟨1⟩, flags := .of [.publicAccess] },
    { name := "m", owner := some ⟨2⟩, flags := .of [.privateAccess] },
    { name := "m", owner := some ⟨3⟩, flags := .of [.publicAccess] }]

theorem concealingTable_acyclic : concealingTable.Acyclic :=
  SymbolTable.acyclic_of_rank (·.index) (by decide)

/-- The public method of `C` replaces that of `A` there. -/
theorem overriding_iff_replaces_public :
    concealingTable.Acyclic ∧ concealingTable.Replaces ⟨2⟩ ⟨0⟩ ⟨3⟩ ∧
    ∀ e, ∃ s, (s, e) ∈ ({ entries := [(⟨2⟩, e)] } : Catalog).entries ∧
      (concealingTable.method s).owner = some ⟨3⟩ ∧
        (s = ⟨0⟩ ∨ concealingTable.Replaces s ⟨0⟩ ⟨3⟩) := by
  obtain ⟨hover, hled⟩ := overriding_iff_replaces concealingTable_acyclic
  refine ⟨concealingTable_acyclic, ?_, fun e => hled _ ⟨0⟩ ⟨3⟩ e rfl⟩
  exact ((hover ⟨2⟩ ⟨0⟩ ⟨3⟩).mp (by decide)).resolve_left (by decide)

/-- The private method of `B` passes for an override of the method of `A`, and a call is led to
it. -/
theorem private_method_overrides :
    concealingTable.Acyclic ∧ (concealingTable.method ⟨1⟩).isPrivate = true ∧
    concealingTable.overrides? ⟨1⟩ ⟨0⟩ (some ⟨2⟩) = some true ∧
    ∀ e, ({ entries := [(⟨1⟩, e)] } : Catalog).overrider? concealingTable (some ⟨0⟩) (some ⟨2⟩) =
      .ok (some e) :=
  ⟨concealingTable_acyclic, by decide, by decide, fun _ => rfl⟩

end Catalog

end EarlyEscape
