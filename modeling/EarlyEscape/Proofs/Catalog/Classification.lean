import EarlyEscape.Proofs.Catalog.Enclosure

/-!
# The catalog is the lexical classification

What the catalog of a unit says can be read off the unit from the inside out.  A method has an entry
if a class of the unit declares it; warnings are suppressed for it if an annotation on it or on a
declaration around it says so; a class is not public for the catalog if it or a class around it is
not; and the analysis starts from the constructors that outside code can use from a subclass.  The
catalog is made from the outside in, and agrees with this wherever it is made at all.  The exception
is a class whose package cannot be told.

## Main definitions

* `CompilationUnit.Regular` : a unit in which nothing is unknown, nameless or declared twice.
* `Catalog.Classifies` : the lexical classification of a unit.

## Main results

* `Catalog.build_classifies` : the catalog of a regular unit is its lexical classification, unless
  it depends on the package of a stray class.
* `Catalog.stray_class_breaks_catalog` : a regular unit without a catalog.
-/

namespace EarlyEscape

/-- All nodes of the unit are of known sorts, every class declaration occurs once and has a symbol,
no class and no method is declared twice, and parameters of methods have no initializers. -/
structure CompilationUnit.Regular (u : CompilationUnit) : Prop where
  known : ∀ n ∈ (Node.file u).nodes, n.isKnown = true
  once : ((Node.file u).classes.map (·.id)).Nodup
  named : ∀ d ∈ (Node.file u).classes, d.sym ≠ none
  classes : ((Node.file u).classes.map (·.sym)).Nodup
  methods : (Catalog.methodSyms (.file u)).Nodup
  params : ∀ d ∈ (Node.file u).classes, ∀ md ∈ d.methods, ∀ v ∈ md.params, v.init = none

theorem Lint.isEnabled_augment_eq_false {l : Lint} {as : List Annotation} :
    (l.augment as).isEnabled = false ↔
      l.isEnabled = false ∨ as.any Annotation.suppresses = true := by
  cases l with
  | mk enabled suppressed =>
    cases enabled <;> cases suppressed <;> simp [augment, isEnabled]

namespace Catalog

variable {t : SymbolTable} {u : CompilationUnit} {lint : Lint}

/-! ### Declarations of the unit -/

theorem below_file_iff {d : ClassDecl} :
    (Node.file u).Below (.ofClassDecl d) ↔ d ∈ (Node.file u).classes := by
  rw [Node.mem_classes]
  refine ⟨Relation.TransGen.to_reflTransGen, fun h => ?_⟩
  exact (Relation.reflTransGen_iff_eq_or_transGen.mp h).resolve_left (by simp)

/-- Where no method is declared twice, its declaration is determined by its symbol. -/
theorem Declares.unique (hmethods : (methodSyms (.file u)).Nodup) {d d' : ClassDecl}
    {md md' : MethodDecl} {m : MethodId} (h : Declares (.file u) d md m)
    (h' : Declares (.file u) d' md' m) : d = d' ∧ md = md' := by
  have hd := below_file_iff.mp h.inside
  have hmem (d : ClassDecl) (md : MethodDecl) (h : Declares (.file u) d md m) :
      m ∈ d.methods.filterMap (·.sym) :=
    List.mem_filterMap.mpr ⟨md, h.declared, h.named⟩
  obtain rfl := Node.eq_of_nodup_flatMap hmethods hd (hmem d md h) (below_file_iff.mp h'.inside)
    (hmem d' md' h')
  refine ⟨rfl, ?_⟩
  have hnodup := (List.nodup_flatMap.mp hmethods).1 d hd
  rw [List.filterMap_eq_flatMap_toList] at hnodup
  exact Node.eq_of_nodup_flatMap hnodup h.declared (Option.mem_toList.mpr h.named) h'.declared
    (Option.mem_toList.mpr h'.named)

theorem not_declaredTwice (hmethods : (methodSyms (.file u)).Nodup) (m : MethodId) :
    ¬DeclaredTwice (.file u) m := by
  rintro ⟨d, md, d', md', h, h', hne⟩
  obtain ⟨rfl, rfl⟩ := h.unique hmethods h'
  exact hne.elim (· rfl) (· rfl)

/-! ### Classes that are recorded -/

theorem mem_recorded_iff {r : Recorded} : r ∈ recorded t u lint ↔
    ∃ a, .cls a r.decl ∈ findings [] (.file u) ∧ r.decl.sym = some r.cls ∧
      r.inside = .inside t lint a := by
  obtain ⟨inside, d, c⟩ := r
  simp only [recorded, List.mem_filterMap]
  constructor
  · rintro ⟨f, hf, hr⟩
    cases f with
    | cls a d' =>
      obtain ⟨c', hc, heq⟩ := Option.map_eq_some_iff.mp hr
      cases heq
      exact ⟨a, hf, hc, rfl⟩
    | unknown => cases hr
  · rintro ⟨a, hf, hc, rfl⟩
    exact ⟨_, hf, by simp [Finding.recorded?, hc]⟩

theorem mem_classes_of_mem_recorded {r : Recorded} (h : r ∈ recorded t u lint) :
    r.decl ∈ (Node.file u).classes := by
  obtain ⟨a, hf, -, -⟩ := mem_recorded_iff.mp h
  obtain ⟨-, -, hwithin, -⟩ := of_mem_findings hf
  exact Node.mem_classes.mpr hwithin

theorem exists_recorded (hu : u.Regular) {d : ClassDecl} (hd : d ∈ (Node.file u).classes)
    {c : ClassId} (hc : d.sym = some c) : ∃ inside, ⟨inside, d, c⟩ ∈ recorded t u lint := by
  obtain ⟨a, ha⟩ := exists_finding hu.named hu.params hd []
  exact ⟨_, mem_recorded_iff.mpr ⟨a, ha, hc, rfl⟩⟩

/-- Some declaration around the class has an annotation that suppresses warnings. -/
def SuppressedAround (u : CompilationUnit) (d : ClassDecl) : Prop :=
  ∃ e : Encloser, e.Encloses (.file u) d ∧ e.annotations.any Annotation.suppresses = true

/-- The class itself or a class around it is anonymous or not public. -/
def HiddenAround (t : SymbolTable) (u : CompilationUnit) (d : ClassDecl) : Prop :=
  ∃ d' c, (Node.file u).Within (.ofClassDecl d') ∧ (Node.ofClassDecl d').Within (.ofClassDecl d) ∧
    d'.sym = some c ∧ ((t.cls c).isAnonymous = true ∨ (t.cls c).isPublic = false)

theorem nonPublicOuter_iff (hu : u.Regular) {r : Recorded} (hr : r ∈ recorded t u lint) :
    r.inside.nonPublicOuter = true ↔ HiddenAround t u r.decl := by
  obtain ⟨a, hf, -, hinside⟩ := mem_recorded_iff.mp hr
  have hmem := mem_around_iff hu.once hf
  rw [hinside, Place.inside, List.any_eq_true]
  constructor
  · rintro ⟨e, he, hhides⟩
    obtain he | ⟨holder, hh, hat, hed⟩ := (hmem e).mp he
    · cases he
    · cases hat with
      | cls d' =>
        simp only [Encloser.hides, Option.any_eq_true] at hhides
        obtain ⟨c, hc, hhides⟩ := hhides
        exact ⟨d', c, hh, hed, hc, by simpa using hhides⟩
      | method | var => cases hhides
  · rintro ⟨d', c, hh, hed, hc, hhides⟩
    refine ⟨.cls d', (hmem _).mpr (.inr ⟨_, hh, .cls d', hed⟩), ?_⟩
    simpa [Encloser.hides, hc] using hhides

theorem isEnabled_inside_iff (hu : u.Regular) {r : Recorded} (hr : r ∈ recorded t u lint)
    (as : List Annotation) : (r.inside.augment as).lint.isEnabled = false ↔
      lint.isEnabled = false ∨ as.any Annotation.suppresses = true ∨
        SuppressedAround u r.decl := by
  obtain ⟨a, hf, -, hinside⟩ := mem_recorded_iff.mp hr
  have haround : (a.flatMap (·.annotations)).any Annotation.suppresses = true ↔
      SuppressedAround u r.decl := by
    simp only [SuppressedAround, List.any_flatMap, List.any_eq_true (l := a)]
    refine exists_congr fun e => and_congr_left fun _ => ?_
    rw [mem_around_iff hu.once hf]
    simp
  rw [hinside, Place.augment, Place.inside, Lint.isEnabled_augment_eq_false,
    Lint.isEnabled_augment_eq_false, haround, or_assoc, @or_comm (SuppressedAround u r.decl)]

/-- Code outside the module can declare a subclass of the class. -/
structure Extendable (t : SymbolTable) (u : CompilationUnit) (d : ClassDecl) (c : ClassId) :
    Prop where
  isPublic : (t.cls c).isPublic = true
  isFinal : (t.cls c).isFinal = false
  isSealed : (t.cls c).isSealed = false
  isLocalOrAnonymous : (t.cls c).isLocalOrAnonymous = false
  exported : t.exports u.module (t.packageOf? c) = true
  notHidden : ¬HiddenAround t u d

theorem isExtendable_iff (hu : u.Regular) {r : Recorded} (hr : r ∈ recorded t u lint) :
    isExtendable t u.module r.inside r.cls = true ↔ Extendable t u r.decl r.cls := by
  have hhidden := nonPublicOuter_iff hu hr
  simp only [isExtendable, Bool.and_eq_true, Bool.not_eq_true', Bool.eq_false_iff, ne_eq, hhidden]
  constructor
  · rintro ⟨⟨⟨⟨⟨hfinal, hpublic⟩, hexported⟩, hsealed⟩, hlocal⟩, hhidden⟩
    exact ⟨hpublic, by simpa using hfinal, by simpa using hsealed, by simpa using hlocal, hexported,
      hhidden⟩
  · rintro ⟨hpublic, hfinal, hsealed, hlocal, hexported, hhidden⟩
    exact ⟨⟨⟨⟨⟨by simpa using hfinal, hpublic⟩, hexported⟩, by simpa using hsealed⟩,
      by simpa using hlocal⟩, hhidden⟩

/-! ### The classification -/

/-- The catalog is the lexical classification of the unit: what it says about methods and classes is
read off their declarations and the declarations around them. -/
structure Classifies (t : SymbolTable) (u : CompilationUnit) (lint : Lint) (cat : Catalog) :
    Prop where
  /-- The methods with an entry are those that are members of a class anywhere in the unit. -/
  lookup : ∀ m, (cat.lookup? (some m)).isSome = true ↔ ∃ d md, Declares (.file u) d md m
  /-- The entry of a method names its declaration and the class that it is a member of. -/
  entry : ∀ m e, cat.lookup? (some m) = some e → Declares (.file u) e.cls e.decl m
  /-- The list of all entries has each such method once. -/
  all : (cat.entries.map (·.1)).Nodup ∧
    ∀ m, m ∈ cat.entries.map (·.1) ↔ ∃ d md, Declares (.file u) d md m
  suppressed : ∀ d md m, Declares (.file u) d md m → (cat.isSuppressed (.method m) = true ↔
    lint.isEnabled = false ∨ md.annotations.any Annotation.suppresses = true ∨
      SuppressedAround u d)
  nonPublic : ∀ d c, (Node.file u).Within (.ofClassDecl d) → d.sym = some c →
    (cat.isNonPublic (some c) = true ↔ HiddenAround t u d)
  analyzable : ∀ m e c, cat.lookup? (some m) = some e → e.cls.sym = some c →
    (e.analyzable = true ↔ (t.method m).isConstructor = true ∧
      (t.method m).isPublicOrProtected = true ∧ cat.isSuppressed (.method m) = false ∧
      Extendable t u e.cls c)
  invokable : ∀ m e c, cat.lookup? (some m) = some e → e.cls.sym = some c →
    (e.invokable = true ↔ ¬Extendable t u e.cls c ∨ (t.method m).isConstructor = true ∨
      (t.method m).flags.hasAny [.static, .privateAccess, .final] = true)
  /-- The analysis goes through the classes with such a constructor, in the order of the source. -/
  starts : cat.analyzable.Sublist (Node.file u).classes ∧ ∀ d, d ∈ cat.analyzable ↔
    ∃ m e, cat.lookup? (some m) = some e ∧ e.cls = d ∧ e.analyzable = true

theorem mem_entries_iff {module : Option ModuleId} {r : Recorded} {m : MethodId} {e : Entry} :
    (m, e) ∈ r.entries t module ↔ ∃ md ∈ r.decl.methods, md.sym = some m ∧
      e = classify t r.inside (isExtendable t module r.inside r.cls) r.decl md m := by
  simp only [Recorded.entries_eq, List.mem_filterMap, Option.map_eq_some_iff, Prod.mk.injEq]
  constructor
  · rintro ⟨md, hmd, m', hm, rfl, rfl⟩
    exact ⟨md, hmd, hm, rfl⟩
  · rintro ⟨md, hmd, hm, rfl⟩
    exact ⟨md, hmd, m, hm, rfl, rfl⟩

theorem hushed?_eq_method {inside : Place} {x : Member} {m : MethodId} :
    hushed? inside x = some (.method m) ↔ ∃ md, x = .method md ∧ md.sym = some m ∧
      (inside.augment md.annotations).lint.isEnabled = false := by
  cases x with
  | method md => simp [hushed?, and_comm]
  | field v => simp [hushed?]
  | initializer | nested | unknown => simp [hushed?]

section Contents

variable (hu : u.Regular) {cat : Catalog} (hcat : Collects t u.module (recorded t u lint) cat)
  {d : ClassDecl} {md : MethodDecl} {m : MethodId} {e : Entry}

include hu hcat

theorem nodup_keys_of_collects : (cat.entries.map (·.1)).Nodup := by
  rw [hcat.entries]
  exact nodup_keys_recorded hu.methods

/-- The entry of a method is that in the class that is recorded for its declaration. -/
theorem exists_recorded_of_lookup? (h : cat.lookup? (some m) = some e) :
    ∃ r ∈ recorded t u lint, e.decl ∈ r.decl.methods ∧ e.decl.sym = some m ∧
      e = classify t r.inside (isExtendable t u.module r.inside r.cls) r.decl e.decl m := by
  rw [lookup?_eq_some_iff_mem (nodup_keys_of_collects hu hcat), hcat.entries] at h
  obtain ⟨r, hr, h⟩ := List.mem_flatMap.mp h
  obtain ⟨md, hmd, hm, rfl⟩ := mem_entries_iff.mp h
  exact ⟨r, hr, hmd, hm, rfl⟩

theorem mem_keys_iff : m ∈ cat.entries.map (·.1) ↔ ∃ d md, Declares (.file u) d md m := by
  rw [hcat.entries, List.map_flatMap, List.mem_flatMap]
  constructor
  · rintro ⟨r, hr, h⟩
    rw [Recorded.keys_entries] at h
    obtain ⟨md, hmd, hm⟩ := List.mem_filterMap.mp h
    exact ⟨r.decl, md, below_file_iff.mpr (mem_classes_of_mem_recorded hr), hmd, hm⟩
  · rintro ⟨d, md, hd, hmd, hm⟩
    have hd := below_file_iff.mp hd
    obtain ⟨c, hc⟩ := Option.ne_none_iff_exists'.mp (hu.named d hd)
    obtain ⟨inside, hr⟩ := exists_recorded hu hd hc
    refine ⟨_, hr, ?_⟩
    rw [Recorded.keys_entries]
    exact List.mem_filterMap.mpr ⟨md, hmd, hm⟩

theorem lookup?_isSome_iff :
    (cat.lookup? (some m)).isSome = true ↔ ∃ d md, Declares (.file u) d md m := by
  rw [← mem_keys_iff hu hcat, Option.isSome_iff_exists]
  simp [lookup?_eq_some_iff_mem (nodup_keys_of_collects hu hcat)]

theorem isSuppressed_iff {r : Recorded} (hr : r ∈ recorded t u lint) (hmd : md ∈ r.decl.methods)
    (hm : md.sym = some m) : cat.isSuppressed (.method m) = true ↔
      (r.inside.augment md.annotations).lint.isEnabled = false := by
  have hdeclares : Declares (.file u) r.decl md m :=
    ⟨below_file_iff.mpr (mem_classes_of_mem_recorded hr), hmd, hm⟩
  rw [isSuppressed, List.contains_iff_mem, hcat.suppressed]
  constructor
  · rintro ⟨r', hr', x, hx, h⟩
    obtain ⟨md', rfl, hm', hoff⟩ := hushed?_eq_method.mp h
    -- the other class that is recorded is the same, with the same place inside
    obtain ⟨hd, rfl⟩ := hdeclares.unique hu.methods ⟨below_file_iff.mpr
      (mem_classes_of_mem_recorded hr'), List.mem_filterMap.mpr ⟨_, hx, rfl⟩, hm'⟩
    rw [isEnabled_inside_iff hu hr'] at hoff
    rw [isEnabled_inside_iff hu hr, hd]
    exact hoff
  · intro hoff
    obtain ⟨x, hx, h⟩ := List.mem_filterMap.mp hmd
    cases x with
    | method =>
      cases h
      exact ⟨r, hr, _, hx, hushed?_eq_method.mpr ⟨md, rfl, hm, hoff⟩⟩
    | field | initializer | nested | unknown => cases h

theorem isNonPublic_iff {r : Recorded} (hr : r ∈ recorded t u lint) :
    cat.isNonPublic (some r.cls) = true ↔ HiddenAround t u r.decl := by
  rw [isNonPublic, Option.any_some, List.contains_iff_mem, hcat.nonPublic]
  constructor
  · rintro ⟨r', hr', hhidden, hc⟩
    obtain ⟨-, -, hsym, -⟩ := mem_recorded_iff.mp hr
    obtain ⟨-, -, hsym', -⟩ := mem_recorded_iff.mp hr'
    have hd : r'.decl = r.decl := List.inj_on_of_nodup_map hu.classes
      (mem_classes_of_mem_recorded hr') (mem_classes_of_mem_recorded hr) (by rw [hsym, hsym', hc])
    rw [← hd]
    exact (nonPublicOuter_iff hu hr').mp hhidden
  · intro hhidden
    exact ⟨r, hr, (nonPublicOuter_iff hu hr).mpr hhidden, rfl⟩

/-- The class that an entry names is recorded, and the place inside it says how the method is
classified. -/
theorem exists_recorded_of_entry {c : ClassId} (h : cat.lookup? (some m) = some e)
    (hc : e.cls.sym = some c) :
    ∃ r ∈ recorded t u lint, r.decl = e.cls ∧ r.cls = c ∧
      (cat.isSuppressed (.method m) = false ↔
        (r.inside.augment e.decl.annotations).lint.isEnabled = true) ∧
      e = classify t r.inside (isExtendable t u.module r.inside r.cls) r.decl e.decl m := by
  obtain ⟨r, hr, hmd, hm, he⟩ := exists_recorded_of_lookup? hu hcat h
  have hcls : e.cls = r.decl := congrArg Entry.cls he
  obtain ⟨-, -, hsym, -⟩ := mem_recorded_iff.mp hr
  refine ⟨r, hr, hcls.symm, ?_, ?_, he⟩
  · rw [hcls, hsym] at hc
    exact Option.some.inj hc
  · rw [← Bool.not_eq_true, isSuppressed_iff hu hcat hr hmd hm, Bool.not_eq_false]

theorem classifies_of_collects : Classifies t u lint cat where
  lookup m := lookup?_isSome_iff hu hcat
  entry m e h := by
    obtain ⟨r, hr, hmd, hm, he⟩ := exists_recorded_of_lookup? hu hcat h
    rw [show e.cls = r.decl from congrArg Entry.cls he]
    exact ⟨below_file_iff.mpr (mem_classes_of_mem_recorded hr), hmd, hm⟩
  all := ⟨nodup_keys_of_collects hu hcat, fun m => mem_keys_iff hu hcat⟩
  suppressed d md m h := by
    have hd := below_file_iff.mp h.inside
    obtain ⟨c, hc⟩ := Option.ne_none_iff_exists'.mp (hu.named d hd)
    obtain ⟨inside, hr⟩ := exists_recorded hu hd hc
    rw [isSuppressed_iff hu hcat hr h.declared h.named]
    exact isEnabled_inside_iff hu hr md.annotations
  nonPublic d c hd hc := by
    obtain ⟨inside, hr⟩ := exists_recorded hu (Node.mem_classes.mpr hd) hc
    exact isNonPublic_iff hu hcat hr
  analyzable m e c h hc := by
    obtain ⟨r, hr, hd, rfl, hsuppressed, he⟩ := exists_recorded_of_entry hu hcat h hc
    rw [hsuppressed, ← hd, ← isExtendable_iff hu hr, congrArg Entry.analyzable he]
    simp only [classify, Bool.and_eq_true]
    tauto
  invokable m e c h hc := by
    obtain ⟨r, hr, hd, rfl, -, he⟩ := exists_recorded_of_entry hu hcat h hc
    rw [← hd, ← isExtendable_iff hu hr, congrArg Entry.invokable he]
    simp only [classify, Bool.or_eq_true, Bool.not_eq_true', Bool.not_eq_true, or_assoc]
  starts := by
    rw [hcat.analyzable]
    constructor
    · exact (List.filter_sublist.map _).trans (decls_recorded_sublist t u lint)
    · intro d
      simp only [lookup?_eq_some_iff_mem (nodup_keys_of_collects hu hcat), hcat.entries,
        List.mem_map, List.mem_filter, Recorded.starts, List.any_eq_true, List.mem_flatMap]
      constructor
      · rintro ⟨r, ⟨hr, ⟨m, e⟩, he, hstarts⟩, rfl⟩
        obtain ⟨md, -, -, rfl⟩ := mem_entries_iff.mp he
        exact ⟨m, _, ⟨r, hr, he⟩, rfl, hstarts⟩
      · rintro ⟨m, e, ⟨r, hr, he⟩, rfl, hstarts⟩
        obtain ⟨md, -, -, rfl⟩ := mem_entries_iff.mp he
        exact ⟨r, ⟨hr, (m, _), he, hstarts⟩, rfl⟩

end Contents

/-! ### Units without a catalog -/

/-- Some class of the unit is public and not final, so that its package counts, but the package
cannot be told. -/
def NeedsStrayPackage (t : SymbolTable) (u : CompilationUnit) : Prop :=
  ∃ d c, (Node.file u).Within (.ofClassDecl d) ∧ d.sym = some c ∧ (t.cls c).isPublic = true ∧
    (t.cls c).isFinal = false ∧ t.isStray c = true

/-- What is found besides classes is a node of an unknown sort. -/
theorem exists_unknown_of_mem_findings {around : List Encloser} {n : Node} {w : UnknownNode}
    (h : .unknown w ∈ findings around n) : ∃ c, n.Within c ∧ c.isKnown = false := by
  obtain ⟨c, hleads, hunknown, -⟩ := unknown_mem_findings_iff.mp h
  exact ⟨c, within_of_leads hleads, hunknown⟩

/-- The faults in a regular unit are the classes whose package counts and cannot be told. -/
theorem exists_fault_iff (hu : u.Regular) {e : BuildError} :
    (∃ f ∈ findings [] (.file u), f.fault? t = some e) ↔
      e = .untold .package ∧ NeedsStrayPackage t u := by
  constructor
  · rintro ⟨f, hf, hfault⟩
    cases f with
    | cls a d =>
      obtain ⟨-, -, hd, -⟩ := of_mem_findings hf
      simp only [Finding.fault?, Option.ite_none_right_eq_some, Option.any_eq_true,
        dependsOnPackage, Bool.and_eq_true, Bool.not_eq_true'] at hfault
      obtain ⟨⟨c, hc, ⟨hfinal, hpublic⟩, hstray⟩, heq⟩ := hfault
      exact ⟨(Option.some.inj heq).symm, d, c, hd, hc, hpublic, hfinal, hstray⟩
    | unknown w =>
      obtain ⟨c, hc, hunknown⟩ := exists_unknown_of_mem_findings hf
      cases (hu.known c (Node.mem_nodes.mpr hc)).symm.trans hunknown
  · rintro ⟨rfl, d, c, hd, hc, hpublic, hfinal, hstray⟩
    obtain ⟨a, ha⟩ := exists_finding hu.named hu.params (Node.mem_classes.mpr hd) []
    exact ⟨_, ha, by simp [Finding.fault?, dependsOnPackage, hc, hpublic, hfinal, hstray]⟩

theorem build_eq_error (hu : u.Regular) (hstray : NeedsStrayPackage t u) :
    build t u lint = .error (.untold .package) := by
  obtain ⟨f, hf, hfault⟩ := (exists_fault_iff hu).mpr ⟨rfl, hstray⟩
  rw [build_eq_of_nodup hu.once]
  cases hfirst : (findings [] (.file u)).findSome? (Finding.fault? t) with
  | none => cases (List.findSome?_eq_none_iff.mp hfirst f hf).symm.trans hfault
  | some e =>
    obtain ⟨rfl, -⟩ := (exists_fault_iff hu).mp (List.exists_of_findSome?_eq_some hfirst)
    rfl

theorem exists_build_eq_ok (hu : u.Regular) (hstray : ¬NeedsStrayPackage t u) :
    ∃ cat, build t u lint = .ok cat := by
  have hnone : (findings [] (.file u)).findSome? (Finding.fault? t) = none := by
    refine List.findSome?_eq_none_iff.mpr fun f hf => ?_
    refine Option.eq_none_iff_forall_ne_some.mpr fun e hfault => ?_
    exact hstray ((exists_fault_iff hu).mp ⟨f, hf, hfault⟩).2
  rw [build_eq_of_nodup hu.once, hnone]
  exact ⟨_, rfl⟩

/-- The catalog of a regular unit cannot be made exactly if it depends on the package of a class
whose package cannot be told.  In all other cases it is the lexical classification of the unit. -/
theorem build_classifies (t : SymbolTable) (u : CompilationUnit) (lint : Lint) (hu : u.Regular) :
    (NeedsStrayPackage t u → build t u lint = .error (.untold .package)) ∧
    (¬NeedsStrayPackage t u → ∃ cat, build t u lint = .ok cat ∧ Classifies t u lint cat) := by
  refine ⟨build_eq_error hu, fun hstray => ?_⟩
  obtain ⟨cat, hcat⟩ := exists_build_eq_ok hu hstray
  exact ⟨cat, hcat, classifies_of_collects hu (collects_of_build hu.once hu.methods hcat)⟩

/-! ### A class inside a method that no class declares -/

/-- The class `N` in the class `M`. -/
def strayInner : ClassDecl where
  id := ⟨3⟩
  span := ⟨5, 6⟩
  sym := some ⟨3⟩
  annotations := []
  members := []

/-- The class `M` in the method `loose`. -/
def strayLocal : ClassDecl where
  id := ⟨2⟩
  span := ⟨4, 7⟩
  sym := some ⟨2⟩
  annotations := []
  members := [.nested strayInner]

/-- The method `loose`. -/
def strayMethod : MethodDecl where
  id := ⟨1⟩
  span := ⟨2, 8⟩
  sym := some ⟨0⟩
  annotations := []
  params := []
  body := some ⟨⟨3, 8⟩, false, [some (.classDecl strayLocal)]⟩

/-- The class `A`. -/
def strayOuter : ClassDecl where
  id := ⟨0⟩
  span := ⟨1, 9⟩
  sym := some ⟨1⟩
  annotations := []
  members := [.method strayMethod]

/-- The unit `public class A { void loose() { class M { public class N {} } } }`. -/
def strayUnit : CompilationUnit where
  span := ⟨1, 9⟩
  name := "A.java"
  package := some ⟨0⟩
  module := none
  classes := [strayOuter]

/-- The symbols of the unit, with the class that the symbol of `loose` says to declare it. -/
def strayUnitTable (owner : Option ClassId) : SymbolTable where
  packages := #[{ name := "p" }]
  classes := #[{ name := "Object" },
    { name := "A", owner := some (.package ⟨0⟩), flags := .of [.publicAccess] },
    { name := "M", kind := .localClass, owner := some (.method ⟨0⟩) },
    { name := "N", kind := .member, owner := some (.cls ⟨2⟩), flags := .of [.publicAccess] }]
  methods := #[{ name := "loose", owner }]

theorem classes_strayUnit :
    (Node.file strayUnit).classes = [strayOuter, strayLocal, strayInner] := by
  cbv

theorem strayUnit_regular : strayUnit.Regular where
  known := by
    have h : (Node.file strayUnit).nodes.all Node.isKnown = true := by cbv
    exact List.all_eq_true.mp h
  once := by
    rw [classes_strayUnit]
    decide
  named := by
    rw [classes_strayUnit]
    simp [strayOuter, strayLocal, strayInner]
  classes := by
    rw [classes_strayUnit]
    decide
  methods := by
    rw [methodSyms, classes_strayUnit]
    decide
  params := by
    rw [classes_strayUnit]
    simp [strayOuter, strayLocal, strayInner, ClassDecl.methods, strayMethod]

/-- With a class for `loose` the unit has its classification. -/
theorem build_classifies_strayUnit :
    ∃ cat, build (strayUnitTable (some ⟨1⟩)) strayUnit { enabled := true } = .ok cat ∧
      Classifies (strayUnitTable (some ⟨1⟩)) strayUnit { enabled := true } cat := by
  refine (build_classifies _ _ _ strayUnit_regular).2 ?_
  rintro ⟨d, c, hd, hc, -, -, hstray⟩
  rw [← Node.mem_classes, classes_strayUnit] at hd
  simp only [List.mem_cons, List.not_mem_nil, or_false] at hd
  rcases hd with rfl | rfl | rfl <;> cases hc <;> revert hstray <;> decide +kernel

/-- Without a class for `loose` the package of `N` cannot be told, and the unit has no catalog,
although `A` declares the method. -/
theorem stray_class_breaks_catalog :
    strayUnit.Regular ∧ Declares (.file strayUnit) strayOuter strayMethod ⟨0⟩ ∧
    ∀ lint, build (strayUnitTable none) strayUnit lint = .error (.untold .package) := by
  refine ⟨strayUnit_regular, ⟨?_, List.mem_singleton_self _, rfl⟩, fun lint => ?_⟩
  · exact below_file_iff.mpr (classes_strayUnit ▸ List.mem_cons_self)
  · refine build_eq_error strayUnit_regular ⟨strayInner, ⟨3⟩, ?_, rfl, by decide, by decide, ?_⟩
    · rw [← Node.mem_classes, classes_strayUnit]
      simp
    · decide +kernel

end Catalog

end EarlyEscape
