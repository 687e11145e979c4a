import EarlyEscape.Catalog.Build
import EarlyEscape.Proofs.Syntax.Inside
import Mathlib.Logic.Function.Basic

/-!
# What the catalog of a unit holds

The catalog of a compilation unit has one entry for a method, and the entry names a declaration of
the method in a class of the unit.  Each class is met at one place of the unit, which decides for
its methods whether warnings are suppressed and whether the analysis starts from them.

## Main definitions

* `Catalog.Entry.Describes` : an entry names a declaration of a method inside a node.
* `Catalog.Describes` : a catalog holds such entries, one for a method.
* `Catalog.Builder.visitMember` : the walk through a member of a class.
* `Catalog.Builder.Placed` : what the places of classes say about the catalog so far.
* `Catalog.DeclaredTwice` : two declarations have the same symbol.

## Main results

* `Catalog.Builder.visit_classDecl`, `Catalog.Builder.visit_varDecl`,
  `Catalog.Builder.visit_other` : one step of the walk.
* `Catalog.of_build_ok` : what every class keeps holds when a unit has its catalog.
* `Catalog.describes_of_build` : the catalog of a unit describes its declarations.
* `Catalog.declaredTwice_of_analyzable` : warnings are not suppressed for a method that the analysis
  starts from, unless it is declared twice.
-/

namespace EarlyEscape.Catalog

/-- The entry names a declaration of the method `m` in a class inside the node, and the class has a
symbol. -/
structure Entry.Describes (e : Entry) (m : MethodId) (root : Node) : Prop where
  inside : root.Below (.ofClassDecl e.cls)
  declared : e.decl ∈ e.cls.methods
  named : e.decl.sym = some m
  classNamed : e.cls.sym ≠ none

/-- The catalog has at most one entry for a method, and entries and classes are those of
declarations inside the node. -/
structure Describes (cat : Catalog) (root : Node) : Prop where
  entry : ∀ m e, (m, e) ∈ cat.entries → e.Describes m root
  single : ∀ m e e', (m, e) ∈ cat.entries → (m, e') ∈ cat.entries → e = e'
  analyzable : ∀ d ∈ cat.analyzable, root.Below (.ofClassDecl d)

variable {root : Node}

theorem describes_empty : Describes {} root where
  entry := nofun
  single := nofun
  analyzable := nofun

/-! ### Entries -/

theorem mem_entries_record {cat : Catalog} {m m' : MethodId} {e e' : Entry}
    (h : (m', e') ∈ (cat.record m e).entries) :
    m' = m ∧ e' = e ∨ m' ≠ m ∧ (m', e') ∈ cat.entries := by
  unfold record at h
  split at h
  · obtain ⟨x, hx, heq⟩ := List.mem_map.mp h
    split at heq
    · cases heq
      exact .inl ⟨rfl, rfl⟩
    · next hne =>
      subst heq
      exact .inr ⟨by simpa using hne, hx⟩
  · next hnew =>
    rcases List.mem_append.mp h with h' | h'
    · refine .inr ⟨?_, h'⟩
      rintro rfl
      exact hnew (List.any_eq_true.mpr ⟨(m', e'), h', beq_self_eq_true m'⟩)
    · cases List.mem_singleton.mp h'
      exact .inl ⟨rfl, rfl⟩

theorem analyzable_record (cat : Catalog) (m : MethodId) (e : Entry) :
    (cat.record m e).analyzable = cat.analyzable := by
  unfold record
  split <;> rfl

theorem Describes.record {cat : Catalog} (h : cat.Describes root) {m : MethodId} {e : Entry}
    (he : e.Describes m root) : (cat.record m e).Describes root where
  entry m' e' h' := by
    rcases mem_entries_record h' with ⟨rfl, rfl⟩ | ⟨-, h'⟩
    · exact he
    · exact h.entry m' e' h'
  single m' e₁ e₂ h₁ h₂ := by
    rcases mem_entries_record h₁ with ⟨rfl, rfl⟩ | ⟨hne, h₁⟩ <;>
      rcases mem_entries_record h₂ with ⟨heq, rfl⟩ | ⟨hne', h₂⟩
    · rfl
    · exact absurd rfl hne'
    · exact absurd heq hne
    · exact h.single m' e₁ e₂ h₁ h₂
  analyzable d hd := h.analyzable d (analyzable_record cat m e ▸ hd)

/-! ### Classes -/

namespace Builder

variable {t : SymbolTable} {module : Option ModuleId} {inside : Place}

/-- A field leaves the catalog as it was, or its warnings are suppressed. -/
theorem addField_cases (inside : Place) (cat : Catalog) (d : VarDecl) :
    addField inside cat d = cat ∨
      ∃ v, addField inside cat d = { cat with suppressed := .var v :: cat.suppressed } := by
  unfold addField
  split
  · exact .inl rfl
  · next v _ =>
    split
    · exact .inl rfl
    · exact .inr ⟨v, rfl⟩

theorem addMember_describes {cat : Catalog} (h : cat.Describes root) {extendable : Bool}
    {d : ClassDecl} (hd : root.Below (.ofClassDecl d)) (hsym : d.sym ≠ none) {x : Member}
    (hx : x ∈ d.members) : (addMember t inside extendable d cat x).Describes root := by
  cases x with
  | method md =>
    simp only [addMember, addMethod]
    cases hs : md.sym with
    | none => exact h
    | some m =>
      refine Describes.record ?_ ⟨hd, ?_, hs, hsym⟩
      · split
        · exact h
        · exact ⟨h.entry, h.single, h.analyzable⟩
      · exact List.mem_filterMap.mpr ⟨_, hx, rfl⟩
  | field fd =>
    rw [addMember]
    rcases addField_cases inside cat fd with heq | ⟨v, heq⟩ <;> rw [heq]
    · exact h
    · exact ⟨h.entry, h.single, h.analyzable⟩
  | initializer | nested | unknown => exact h

theorem addClass_describes {cat : Catalog} (h : cat.Describes root) {d : ClassDecl}
    (hd : root.Below (.ofClassDecl d)) {c : ClassId} (hc : d.sym = some c) :
    (addClass t module inside d c cat).Describes root := by
  have hsym : d.sym ≠ none := by simp [hc]
  have hmembers : ∀ cat' : Catalog, cat'.Describes root →
      (d.members.foldl (addMember t inside (isExtendable t module inside c) d) cat').Describes
        root := fun cat' h' =>
    List.foldlRecOn (motive := fun cat : Catalog => cat.Describes root) _ _ h' fun _ hcat x hx =>
      addMember_describes hcat hd hsym hx
  have hstart : Describes (if inside.nonPublicOuter
      then { cat with nonPublic := c :: cat.nonPublic } else cat) root := by
    split
    · exact ⟨h.entry, h.single, h.analyzable⟩
    · exact h
  have hall := hmembers _ hstart
  unfold addClass
  dsimp only
  split
  · refine ⟨hall.entry, hall.single, fun d' hd' => ?_⟩
    rcases List.mem_append.mp hd' with hd' | hd'
    · exact hall.analyzable d' hd'
    · rw [List.mem_singleton.mp hd']
      exact hd
  · exact hall

/-! ### One step of the walk -/

variable {p : Place}

/-- The walk through a member of a class. -/
def visitMember (t : SymbolTable) (module : Option ModuleId) (inside : Place) (b : Builder)
    (m : Member) : Except BuildError Builder :=
  match codeOf m with
  | none => .ok b
  | some (as, n) => visit t module (inside.augment as) n b

theorem visit_classDecl (d : ClassDecl) (b : Builder) :
    visit t module p (.ofClassDecl d) b =
      if b.seen.contains d.id then .ok b
      else match d.sym with
        | none => .ok { b with seen := d.id :: b.seen }
        | some c =>
          if dependsOnPackage t c && t.isStray c then .error (.untold .package)
          else d.members.foldlM (visitMember t module (p.enterClass t d c))
            ⟨addClass t module (p.enterClass t d c) d c b.catalog, d.id :: b.seen⟩ := by
  have hmembers (inside : Place) (b : Builder) :
      d.members.foldlM (visitMember t module inside) b =
        d.members.attach.foldlM (fun b m => visitMember t module inside b m.1) b := by
    rw [List.foldlM_subtype (g := visitMember t module inside) fun _ _ _ => rfl,
      List.unattach_attach]
  rw [visit]
  simp only [hmembers]
  congr
  funext c
  congr
  funext b m
  unfold visitMember
  split <;> simp only [*]

/-- The walk enters a class that it has not met, unless it looks for the package of a class that has
none. -/
theorem visit_newClass (inside : Place) (cat : Catalog) {d : ClassDecl} {c : ClassId} {b : Builder}
    (hnew : d.id ∉ b.seen) (hc : d.sym = some c)
    (hstray : (dependsOnPackage t c && t.isStray c) = false) (hinside : p.enterClass t d c = inside)
    (hcat : addClass t module inside d c b.catalog = cat) :
    visit t module p (.ofClassDecl d) b =
      d.members.foldlM (visitMember t module inside) ⟨cat, d.id :: b.seen⟩ := by
  subst hinside hcat
  have hseen : ¬b.seen.contains d.id := by simpa using hnew
  rw [visit_classDecl, if_neg hseen, hc]
  exact if_neg (by simp [hstray])

theorem visit_varDecl (d : VarDecl) (b : Builder) :
    visit t module p (.ofVarDecl d) b =
      match d.init with
      | none => .ok b
      | some e => visit t module (p.augment d.annotations) (.expr e) b := by
  rw [visit]
  split <;> simp only [*]

theorem visit_other {n : Node} (hclass : ∀ d, n ≠ .ofClassDecl d) (hvar : ∀ d, n ≠ .ofVarDecl d)
    (b : Builder) :
    visit t module p n b =
      if n.isKnown then n.children.foldlM (fun b c => visit t module p c b) b
      else .error (.unknownNode ⟨n.sortText⟩) := by
  have hchildren : n.children.foldlM (fun b c => visit t module p c b) b =
      n.children.attach.foldlM (fun b c => visit t module p c.1 b) b := by
    rw [List.foldlM_subtype (g := fun b c => visit t module p c b) fun _ _ _ => rfl,
      List.unattach_attach]
  rw [hchildren]
  rw [visit]
  · exact fun d hd => hclass d hd
  · exact fun d hd => hvar d hd

/-! ### The walk -/

theorem foldlM_cons_eq_ok {α β ε : Type} {f : β → α → Except ε β} {a : α} {l : List α} {b b' : β} :
    (a :: l).foldlM f b = .ok b' ↔ ∃ b₁, f b a = .ok b₁ ∧ l.foldlM f b₁ = .ok b' := by
  rw [List.foldlM_cons]
  cases f b a with
  | error e => exact iff_of_false nofun (by simp)
  | ok b₁ =>
    constructor
    · exact fun h => ⟨b₁, rfl, h⟩
    · rintro ⟨_, ⟨⟩, h⟩
      exact h

/-- What every step of a fold keeps, its result has. -/
theorem of_foldlM_ok {α β ε : Type} {P : β → Prop} {f : β → α → Except ε β} {l : List α}
    {b b' : β} (hstep : ∀ b a b', a ∈ l → P b → f b a = .ok b' → P b') (hb : P b)
    (h : l.foldlM f b = .ok b') : P b' := by
  induction l generalizing b with
  | nil =>
    cases h
    exact hb
  | cons a l ih =>
    obtain ⟨b₁, hfirst, hrest⟩ := foldlM_cons_eq_ok.mp h
    exact ih (fun b x b' hx => hstep b x b' (List.mem_cons_of_mem a hx))
      (hstep b a b₁ List.mem_cons_self hb hfirst) hrest

/-- The code of a member is one of its children, or the member itself. -/
theorem codeOf_cases {x : Member} {as : List Annotation} {n : Node}
    (h : codeOf x = some (as, n)) : n ∈ (Node.ofMember x).children ∨ n = Node.ofMember x := by
  cases x with
  | field fd =>
    obtain ⟨e, he, h⟩ := Option.map_eq_some_iff.mp h
    cases h
    exact .inl (by simp [Node.ofMember, Node.children, Node.stmtChildren, he])
  | method md =>
    obtain ⟨b, hb, h⟩ := Option.map_eq_some_iff.mp h
    cases h
    exact .inl (by simp [Node.ofMember, Node.children, hb])
  | initializer | nested =>
    cases h
    exact .inr rfl
  | unknown => cases h

theorem below_codeOf {d : ClassDecl} {x : Member} {as : List Annotation} {n : Node}
    (hx : x ∈ d.members) (h : codeOf x = some (as, n)) : (Node.ofClassDecl d).Below n := by
  have hmember := Node.ofMember_mem_children hx
  rcases codeOf_cases h with hn | rfl
  · exact .tail (.single hmember) hn
  · exact .single hmember

/-- What every class that the walk records or leaves alone keeps, its result has. -/
theorem of_visit_ok {P : Builder → Prop} (hskip : ∀ b i, P b → P { b with seen := i :: b.seen })
    (hclass : ∀ b d c inside, root.Below (.ofClassDecl d) → d.id ∉ b.seen → d.sym = some c → P b →
      P ⟨addClass t module inside d c b.catalog, d.id :: b.seen⟩)
    {n : Node} {b b' : Builder} (hn : root.Below n) (hb : P b)
    (h : visit t module p n b = .ok b') : P b' := by
  fun_induction visit t module p n b generalizing b'
  case case1 | case5 =>
    cases h
    exact hb
  case case2 =>
    cases h
    exact hskip _ _ hb
  case case3 | case8 => cases h
  case case4 hseen _ c hc _ inside _ ih =>
    refine of_foldlM_ok ?_ (hclass _ _ c inside hn (by simpa using hseen) hc hb) h
    intro b x b₁ _ hb hstep
    split at hstep
    · cases hstep
      exact hb
    · next as n hcode => exact ih b x as n hcode (hn.trans (below_codeOf x.2 hcode)) hb hstep
  case case6 he ih =>
    exact ih (.tail hn (by simp [Node.children, Node.stmtChildren, he])) hb h
  case case7 ih =>
    exact of_foldlM_ok (fun b c b' _ hb hstep => ih b c (.tail hn c.2) hb hstep) hb h

end Builder

/-- What holds at the start and is kept by every class that the walk records or leaves alone, holds
when a unit has its catalog. -/
theorem of_build_ok {t : SymbolTable} {u : CompilationUnit} {lint : Lint} {cat : Catalog}
    {P : Builder → Prop} (hstart : P {}) (hskip : ∀ b i, P b → P { b with seen := i :: b.seen })
    (hclass : ∀ b d c inside, (Node.file u).Below (.ofClassDecl d) → d.id ∉ b.seen →
      d.sym = some c → P b →
      P ⟨Builder.addClass t u.module inside d c b.catalog, d.id :: b.seen⟩)
    (h : build t u lint = .ok cat) : ∃ b, P b ∧ b.catalog = cat := by
  unfold build at h
  cases hb : u.classes.foldlM (fun b d => Builder.visit t u.module ⟨false, lint⟩ (.ofClassDecl d) b)
      ({} : Builder) with
  | error e =>
    rw [hb] at h
    cases h
  | ok b =>
    rw [hb] at h
    cases h
    refine ⟨b, Builder.of_foldlM_ok ?_ hstart hb, rfl⟩
    intro b d b' hd hb hstep
    exact Builder.of_visit_ok hskip hclass (.single (List.mem_map.mpr ⟨d, hd, rfl⟩)) hb hstep

/-- The catalog of a unit describes the declarations of the unit. -/
theorem describes_of_build {t : SymbolTable} {u : CompilationUnit} {lint : Lint} {cat : Catalog}
    (h : build t u lint = .ok cat) : cat.Describes (.file u) := by
  obtain ⟨b, hb, rfl⟩ := of_build_ok (P := fun b => b.catalog.Describes (.file u))
    describes_empty (fun _ _ h => h)
    (fun _ _ _ _ hd _ hc hb => Builder.addClass_describes hb hd hc) h
  exact hb

/-! ### Suppressed methods -/

/-- A class inside the node declares the method. -/
structure Declares (root : Node) (d : ClassDecl) (md : MethodDecl) (m : MethodId) : Prop where
  inside : root.Below (.ofClassDecl d)
  declared : md ∈ d.methods
  named : md.sym = some m

/-- There are two declarations of the method inside the node. -/
def DeclaredTwice (root : Node) (m : MethodId) : Prop :=
  ∃ d md d' md', Declares root d md m ∧ Declares root d' md' m ∧ (d.id ≠ d'.id ∨ md ≠ md')

/-- Whether warnings are enabled in a method of a class, at the place inside the class. -/
def Place.enables (inside : Place) (md : MethodDecl) : Bool :=
  (inside.augment md.annotations).lint.isEnabled

/-- Each class that was met has one place.  Every suppressed method has a declaration where warnings
are not enabled, and every method that the analysis starts from has one where they are. -/
structure Builder.Placed (b : Builder) (root : Node) (place : DeclId → Place) : Prop where
  suppressed : ∀ m, .method m ∈ b.catalog.suppressed →
    ∃ d md, Declares root d md m ∧ d.id ∈ b.seen ∧ (place d.id).enables md = false
  analyzable : ∀ m e, (m, e) ∈ b.catalog.entries → e.analyzable = true →
    e.cls.id ∈ b.seen ∧ (place e.cls.id).enables e.decl = true

namespace Builder

variable {t : SymbolTable} {module : Option ModuleId} {b : Builder} {place : DeclId → Place}
  {d : ClassDecl}

theorem suppressed_record (cat : Catalog) (m : MethodId) (e : Entry) :
    (cat.record m e).suppressed = cat.suppressed := by
  unfold record
  split <;> rfl

theorem Placed.addMember (h : b.Placed root place) (hd : root.Below (.ofClassDecl d))
    (hseen : d.id ∈ b.seen) {extendable : Bool} {x : Member} (hx : x ∈ d.members) :
    Placed { b with catalog := addMember t (place d.id) extendable d b.catalog x } root place := by
  cases x with
  | method md =>
    simp only [Builder.addMember, addMethod]
    cases hs : md.sym with
    | none => exact h
    | some m =>
      have hmd : md ∈ d.methods := List.mem_filterMap.mpr ⟨_, hx, rfl⟩
      refine ⟨fun m' hm' => ?_, fun m' e he ha => ?_⟩
      · rw [suppressed_record] at hm'
        split at hm'
        · exact h.suppressed m' hm'
        · next hoff =>
          rcases List.mem_cons.mp hm' with heq | hm'
          · cases heq
            exact ⟨d, md, ⟨hd, hmd, hs⟩, hseen, Bool.eq_false_iff.mpr hoff⟩
          · exact h.suppressed m' hm'
      · rcases mem_entries_record he with ⟨rfl, rfl⟩ | ⟨-, he⟩
        · exact ⟨hseen, (Bool.and_eq_true_iff.mp ha).2⟩
        · refine h.analyzable m' e ?_ ha
          split at he <;> exact he
  | field fd =>
    rw [Builder.addMember]
    rcases addField_cases (place d.id) b.catalog fd with heq | ⟨v, heq⟩ <;> rw [heq]
    · exact h
    · refine ⟨fun m hm => h.suppressed m ?_, h.analyzable⟩
      exact (List.mem_cons.mp hm).resolve_left (by simp)
  | initializer | nested | unknown => exact h

/-- The classes that were met keep their places when another one is met. -/
theorem Placed.meet (h : b.Placed root place) {place' : DeclId → Place}
    (hplace : ∀ i ∈ b.seen, place' i = place i) (i : DeclId) :
    Placed { b with seen := i :: b.seen } root place' where
  suppressed m hm := by
    obtain ⟨d, md, hdecl, hseen, hoff⟩ := h.suppressed m hm
    exact ⟨d, md, hdecl, List.mem_cons_of_mem _ hseen, by rw [hplace _ hseen, hoff]⟩
  analyzable m e he ha := by
    obtain ⟨hseen, hon⟩ := h.analyzable m e he ha
    exact ⟨List.mem_cons_of_mem _ hseen, by rw [hplace _ hseen, hon]⟩

/-- A class that was not met before gets its place. -/
theorem Placed.addClass (h : b.Placed root place) (hd : root.Below (.ofClassDecl d))
    (hnew : d.id ∉ b.seen) (c : ClassId) (inside : Place) :
    Placed ⟨addClass t module inside d c b.catalog, d.id :: b.seen⟩ root
      (Function.update place d.id inside) := by
  let place' := Function.update place d.id inside
  have hplace : place' d.id = inside := Function.update_self ..
  have hold : ∀ i ∈ b.seen, place' i = place i := by
    rintro i hi
    refine Function.update_of_ne ?_ ..
    rintro rfl
    exact hnew hi
  have hstart : Placed ⟨b.catalog, d.id :: b.seen⟩ root place' := h.meet hold d.id
  have hmembers (cat : Catalog) (h : Placed ⟨cat, d.id :: b.seen⟩ root place') :
      Placed ⟨d.members.foldl (Builder.addMember t inside (isExtendable t module inside c) d) cat,
        d.id :: b.seen⟩ root place' := by
    refine List.foldlRecOn (motive := fun cat => Placed ⟨cat, d.id :: b.seen⟩ root place') _ _ h ?_
    intro cat hcat x hx
    rw [← hplace]
    exact hcat.addMember hd List.mem_cons_self hx
  have hpublic : Placed ⟨if inside.nonPublicOuter then
      { b.catalog with nonPublic := c :: b.catalog.nonPublic } else b.catalog, d.id :: b.seen⟩ root
      place' := by
    split
    · exact ⟨hstart.suppressed, hstart.analyzable⟩
    · exact hstart
  have hall := hmembers _ hpublic
  unfold Builder.addClass
  dsimp only
  split
  · exact ⟨hall.suppressed, hall.analyzable⟩
  · exact hall

end Builder

/-- The catalog of a unit is that of a walk in which each class has one place. -/
theorem exists_placed {t : SymbolTable} {u : CompilationUnit} {lint : Lint} {cat : Catalog}
    (h : build t u lint = .ok cat) :
    ∃ b : Builder, (∃ place, b.Placed (.file u) place) ∧ b.catalog = cat := by
  refine of_build_ok ⟨fun _ => ⟨false, lint⟩, nofun, nofun⟩ ?_ ?_ h
  · rintro b i ⟨place, hb⟩
    exact ⟨place, hb.meet (fun _ _ => rfl) i⟩
  · rintro b d c inside hd hnew - ⟨place, hb⟩
    exact ⟨_, hb.addClass hd hnew c inside⟩

/-- Warnings are suppressed for methods of the unit only. -/
theorem declares_of_isSuppressed {t : SymbolTable} {u : CompilationUnit} {lint : Lint}
    {cat : Catalog} (h : build t u lint = .ok cat) {m : MethodId}
    (hs : cat.isSuppressed (.method m) = true) : ∃ d md, Declares (.file u) d md m := by
  obtain ⟨b, ⟨place, hb⟩, rfl⟩ := exists_placed h
  obtain ⟨d, md, hdecl, -, -⟩ := hb.suppressed m (List.contains_iff_mem.mp hs)
  exact ⟨d, md, hdecl⟩

/-- Warnings are not suppressed for a method that the analysis starts from, unless the unit declares
it twice. -/
theorem declaredTwice_of_analyzable {t : SymbolTable} {u : CompilationUnit} {lint : Lint}
    {cat : Catalog} (h : build t u lint = .ok cat) {m : MethodId} {e : Entry}
    (he : (m, e) ∈ cat.entries) (ha : e.analyzable = true)
    (hs : cat.isSuppressed (.method m) = true) : DeclaredTwice (.file u) m := by
  obtain ⟨b, ⟨place, hb⟩, rfl⟩ := exists_placed h
  obtain ⟨d, md, hdecl, -, hoff⟩ := hb.suppressed m (List.contains_iff_mem.mp hs)
  obtain ⟨-, hon⟩ := hb.analyzable m e he ha
  obtain ⟨hinside, hdeclared, hnamed, -⟩ := (describes_of_build h).entry m e he
  refine ⟨d, md, e.cls, e.decl, hdecl, ⟨hinside, hdeclared, hnamed⟩, ?_⟩
  refine or_iff_not_imp_left.mpr fun hid heq => ?_
  rw [← heq, ← not_not.mp hid, hoff] at hon
  cases hon

end EarlyEscape.Catalog
