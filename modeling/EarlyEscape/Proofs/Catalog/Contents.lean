import EarlyEscape.Proofs.Catalog.Walk
import Mathlib.Data.List.Flatten
import Mathlib.Data.List.Induction

/-!
# The contents of a catalog

In a unit in which no class declaration occurs twice, the walk meets every class that it finds for
the first time, so that the catalog is read off the list of findings: it fails at the first fault in
the list, and otherwise each class contributes its entries, its suppressed members, its symbol and
itself.

## Main definitions

* `Catalog.Recorded` : a class that is recorded, and the place inside it.
* `Catalog.Finding.fault?` : the error that a finding stands for.
* `Catalog.Recorded.entries`, `Catalog.hushed?` : what a class and a member contribute.

## Main results

* `Catalog.build_eq_of_nodup` : the catalog as a fold over the classes that are recorded.
* `Catalog.Recorded.entries_foldl` and others : its contents.
-/

namespace EarlyEscape

namespace Node

theorem classes_sublist_of_mem_children {n c : Node} (h : c ∈ n.children) :
    c.classes.Sublist n.classes := by
  have hone : ([c].flatMap classes).Sublist (n.children.flatMap classes) :=
    (List.singleton_sublist.mpr h).flatMap classes
  rw [List.flatMap_singleton] at hone
  rw [classes_eq n]
  exact hone.trans (List.sublist_append_right _ _)

@[simp] theorem classes_annot (a : Annotation) : (annot a).classes = [] := by
  rw [classes_eq]
  rfl

end Node

namespace Catalog

/-! ### What is found once -/

/-- The class declaration that is found. -/
def Finding.decl? : Finding → Option ClassDecl
  | cls _ d => some d
  | unknown _ => none

theorem classes_sublist_of_codeOf {x : Member} {as : List Annotation} {code : Node}
    (h : codeOf x = some (as, code)) : code.classes.Sublist (Node.ofMember x).classes := by
  rcases Builder.codeOf_cases h with hchild | rfl
  · exact Node.classes_sublist_of_mem_children hchild
  · exact List.Sublist.refl _

theorem classes_parts_sublist (n : Node) :
    ((parts n).flatMap fun x => x.2.classes).Sublist (n.children.flatMap Node.classes) := by
  unfold parts
  split
  · next d =>
    split
    · simp only [List.flatMap_assoc, Node.children, Node.stmtChildren, List.flatMap_append,
        List.flatMap_map]
      refine (List.Sublist.flatMap_right _ fun x _ => ?_).trans (List.sublist_append_right _ _)
      cases hcode : codeOf x with
      | none => exact List.nil_sublist _
      | some code =>
        simp only [Option.toList_some, List.flatMap_singleton]
        exact classes_sublist_of_codeOf hcode
    · exact List.nil_sublist _
  · simp only [Node.children, Node.stmtChildren, List.flatMap_append, Node.ofExpr?,
      List.flatMap_map]
    exact List.sublist_append_right _ _
  · simp only [List.flatMap_map]
    exact List.Sublist.refl _

/-- The classes that the walk finds in a node are among those in the node, in the same order. -/
theorem decls_findings_sublist (around : List Encloser) (n : Node) :
    ((findings around n).filterMap Finding.decl?).Sublist n.classes := by
  induction n using parts_induct generalizing around with
  | step n ih =>
    have hhere : (here around n).filterMap Finding.decl? = n.classDecl?.toList := by
      unfold here
      split
      · rfl
      · next hclass =>
        have hnone : n.classDecl? = none := by
          unfold Node.classDecl?
          split
          · exact (hclass _ rfl).elim
          · rfl
        rw [hnone]
        split <;> rfl
    rw [findings_eq, List.filterMap_append, hhere, Node.classes_eq, List.filterMap_flatMap]
    refine (List.Sublist.refl _).append (.trans ?_ (classes_parts_sublist n))
    exact List.Sublist.flatMap_right _ fun x hx => ih x.1 x.2 hx _

/-! ### The catalog as a fold -/

/-- A class that is recorded, with the place inside it. -/
structure Recorded where
  inside : Place
  decl : ClassDecl
  cls : ClassId

namespace Finding

/-- The class that is recorded when the walk comes to the finding. -/
def recorded? (t : SymbolTable) (lint : Lint) : Finding → Option Recorded
  | cls around d => d.sym.map fun c => ⟨.inside t lint around, d, c⟩
  | unknown _ => none

/-- The error that ends the walk at the finding. -/
def fault? (t : SymbolTable) : Finding → Option BuildError
  | cls _ d =>
    if d.sym.any fun c => dependsOnPackage t c && t.isStray c then some (.untold .package) else none
  | unknown u => some (.unknownNode u)

end Finding

/-- Records a class. -/
def Recorded.add (t : SymbolTable) (module : Option ModuleId) (cat : Catalog) (r : Recorded) :
    Catalog :=
  Builder.addClass t module r.inside r.decl r.cls cat

variable {t : SymbolTable} {module : Option ModuleId} {lint : Lint}

theorem Builder.meet_of_not_mem {b : Builder} {f : Finding} (h : ∀ d ∈ f.decl?, d.id ∉ b.seen) :
    meet t module lint b f =
      match f.fault? t with
      | some e => .error e
      | none => .ok ⟨(f.recorded? t lint).elim b.catalog (Recorded.add t module b.catalog),
          (f.decl?.map (·.id)).toList ++ b.seen⟩ := by
  cases f with
  | unknown u => rfl
  | cls around d =>
    have hnew : ¬b.seen.contains d.id := by simpa using h d rfl
    rw [meet, if_neg hnew, Finding.fault?, Finding.recorded?]
    cases d.sym with
    | none => rfl
    | some c =>
      simp only [Option.any_some]
      split <;> rfl

theorem Builder.foldlM_meet_of_nodup {fs : List Finding} {b : Builder}
    (hnodup : ((fs.filterMap Finding.decl?).map (·.id)).Nodup)
    (hnew : ∀ d ∈ fs.filterMap Finding.decl?, d.id ∉ b.seen) :
    (fs.foldlM (meet t module lint) b).map (·.catalog) =
      match fs.findSome? (Finding.fault? t) with
      | some e => .error e
      | none => .ok ((fs.filterMap (Finding.recorded? t lint)).foldl (Recorded.add t module)
          b.catalog) := by
  induction fs generalizing b with
  | nil => rfl
  | cons f fs ih =>
    have hfirst : meet t module lint b f = _ := meet_of_not_mem fun d hd =>
      hnew d (List.mem_filterMap.mpr ⟨f, List.mem_cons_self, hd⟩)
    rw [List.foldlM_cons, hfirst, List.findSome?_cons]
    cases hfault : f.fault? t with
    | some e => rfl
    | none =>
      have hsub : (fs.filterMap Finding.decl?).Sublist ((f :: fs).filterMap Finding.decl?) :=
        (List.sublist_cons_self f fs).filterMap _
      refine (ih ((hsub.map _).nodup hnodup) fun d hd => ?_).trans ?_
      · -- the class that was met just now does not occur again
        have hold := hnew d (hsub.subset hd)
        cases hf : f.decl? with
        | none => simpa using hold
        | some d' =>
          rw [List.filterMap_cons_some hf, List.map_cons] at hnodup
          have hne : d.id ≠ d'.id := by
            rintro heq
            exact (List.nodup_cons.mp hnodup).1 (heq ▸ List.mem_map_of_mem hd)
          simpa [hne] using hold
      · cases hf : f.recorded? t lint with
        | none => rw [List.filterMap_cons_none hf, Option.elim_none]
        | some r => rw [List.filterMap_cons_some hf, Option.elim_some, List.foldl_cons]

/-- In a unit in which no class declaration occurs twice, the catalog is a fold over the classes
that are recorded, unless there is a fault before. -/
theorem build_eq_of_nodup {u : CompilationUnit}
    (h : ((Node.file u).classes.map (·.id)).Nodup) (lint : Lint) :
    build t u lint =
      match (findings [] (.file u)).findSome? (Finding.fault? t) with
      | some e => .error e
      | none => .ok (((findings [] (.file u)).filterMap (Finding.recorded? t lint)).foldl
          (Recorded.add t u.module) {}) := by
  rw [build_eq (Node.identified_of_nodup h)]
  exact Builder.foldlM_meet_of_nodup (((decls_findings_sublist [] _).map _).nodup h) (by simp)

/-! ### What a class contributes -/

/-- The symbol of a member for which warnings are suppressed at the place inside its class. -/
def hushed? (inside : Place) : Member → Option Symbol
  | .method d => if (inside.augment d.annotations).lint.isEnabled then none else d.sym.map .method
  | .field d => if (inside.augment d.annotations).lint.isEnabled then none else d.sym.map .var
  | _ => none

/-- The entry of a member of the class. -/
def Recorded.entryOf? (t : SymbolTable) (module : Option ModuleId) (r : Recorded) :
    Member → Option (MethodId × Entry)
  | .method d =>
    d.sym.map fun m => (m, classify t r.inside (isExtendable t module r.inside r.cls) r.decl d m)
  | _ => none

/-- The entries of the methods of the class. -/
def Recorded.entries (t : SymbolTable) (module : Option ModuleId) (r : Recorded) :
    List (MethodId × Entry) :=
  r.decl.members.filterMap (r.entryOf? t module)

/-- The entries are those of the declared methods with a symbol. -/
theorem Recorded.entries_eq (r : Recorded) :
    r.entries t module = r.decl.methods.filterMap fun d => d.sym.map fun m =>
      (m, classify t r.inside (isExtendable t module r.inside r.cls) r.decl d m) := by
  rw [entries, ClassDecl.methods, List.filterMap_filterMap]
  congr 1
  funext x
  cases x <;> rfl

/-- Whether the analysis starts from a constructor of the class. -/
def Recorded.starts (t : SymbolTable) (module : Option ModuleId) (r : Recorded) : Bool :=
  (r.entries t module).any (·.2.analyzable)

theorem entries_record_of_not_mem {cat : Catalog} {m : MethodId} {e : Entry}
    (h : m ∉ cat.entries.map (·.1)) : (cat.record m e).entries = cat.entries ++ [(m, e)] := by
  unfold record
  rw [if_neg]
  rintro hany
  obtain ⟨x, hx, heq⟩ := List.any_eq_true.mp hany
  exact h (List.mem_map.mpr ⟨x, hx, by simpa using heq⟩)

theorem nonPublic_record (cat : Catalog) (m : MethodId) (e : Entry) :
    (cat.record m e).nonPublic = cat.nonPublic := by
  unfold record
  split <;> rfl

theorem mem_keys_record {cat : Catalog} {m m' : MethodId} {e : Entry} :
    m' ∈ (cat.record m e).entries.map (·.1) ↔ m' ∈ cat.entries.map (·.1) ∨ m' = m := by
  unfold record
  split
  · next hany =>
    obtain ⟨x, hx, heq⟩ := List.any_eq_true.mp hany
    have hkeys : (cat.entries.map fun x => if x.1 == m then (m, e) else x).map (·.1) =
        cat.entries.map (·.1) := by
      rw [List.map_map]
      refine List.map_congr_left fun y _ => ?_
      by_cases hy : y.1 = m <;> simp [hy]
    rw [hkeys, or_iff_left_of_imp]
    rintro rfl
    exact List.mem_map.mpr ⟨x, hx, by simpa using heq⟩
  · simp [List.map_append]

section Member

variable {r : Recorded} {cat : Catalog} {x : Member} {xs : List Member}

/-- Records a member of the class. -/
def Recorded.addMember (t : SymbolTable) (module : Option ModuleId) (r : Recorded) :
    Catalog → Member → Catalog :=
  Builder.addMember t r.inside (isExtendable t module r.inside r.cls) r.decl

/-- A member adds the symbol for which warnings are suppressed and its entry. -/
theorem addMember_eq : r.addMember t module cat x =
    let cat' := { cat with suppressed := (hushed? r.inside x).toList ++ cat.suppressed }
    (r.entryOf? t module x).elim cat' fun y => cat'.record y.1 y.2 := by
  cases x with
  | method d =>
    simp only [Recorded.addMember, Builder.addMember, Builder.addMethod, Recorded.entryOf?, hushed?]
    cases d.sym with
    | none => simp
    | some m =>
      dsimp only [Option.map_some, Option.elim_some]
      split <;> rfl
  | field d =>
    simp only [Recorded.addMember, Builder.addMember, Builder.addField, Recorded.entryOf?, hushed?]
    cases d.sym with
    | none => simp
    | some v =>
      dsimp only [Option.map_some, Option.elim_none]
      split <;> rfl
  | initializer | nested | unknown => rfl

theorem entries_addMember (h : ∀ y ∈ r.entryOf? t module x, y.1 ∉ cat.entries.map (·.1)) :
    (r.addMember t module cat x).entries = cat.entries ++ (r.entryOf? t module x).toList := by
  rw [addMember_eq]
  cases hentry : r.entryOf? t module x with
  | none => simp
  | some y => exact entries_record_of_not_mem (h y hentry)

theorem suppressed_addMember :
    (r.addMember t module cat x).suppressed = (hushed? r.inside x).toList ++ cat.suppressed := by
  rw [addMember_eq]
  cases r.entryOf? t module x with
  | none => rfl
  | some y => exact Builder.suppressed_record _ _ _

theorem nonPublic_addMember : (r.addMember t module cat x).nonPublic = cat.nonPublic := by
  rw [addMember_eq]
  cases r.entryOf? t module x with
  | none => rfl
  | some y => exact nonPublic_record _ _ _

theorem analyzable_addMember : (r.addMember t module cat x).analyzable = cat.analyzable := by
  rw [addMember_eq]
  cases r.entryOf? t module x with
  | none => rfl
  | some y => exact analyzable_record _ _ _

theorem entries_foldl_addMember
    (h : ((cat.entries ++ xs.filterMap (r.entryOf? t module)).map (·.1)).Nodup) :
    (xs.foldl (r.addMember t module) cat).entries =
      cat.entries ++ xs.filterMap (r.entryOf? t module) := by
  induction xs generalizing cat with
  | nil => simp
  | cons x xs ih =>
    have hsplit : (x :: xs).filterMap (r.entryOf? t module) =
        (r.entryOf? t module x).toList ++ xs.filterMap (r.entryOf? t module) := by
      cases hentry : r.entryOf? t module x with
      | none => rw [List.filterMap_cons_none hentry, Option.toList_none, List.nil_append]
      | some y => rw [List.filterMap_cons_some hentry, Option.toList_some, List.singleton_append]
    rw [hsplit, ← List.append_assoc] at h ⊢
    have hfirst : (r.addMember t module cat x).entries = _ := entries_addMember fun y hy hmem => by
      rw [List.append_assoc, List.map_append] at h
      refine List.disjoint_of_nodup_append h hmem (List.mem_map.mpr ⟨y, ?_, rfl⟩)
      exact List.mem_append_left _ (Option.mem_toList.mpr hy)
    rw [List.foldl_cons, ← hfirst]
    exact ih (hfirst ▸ h)

theorem mem_keys_foldl_addMember {m : MethodId} :
    m ∈ (xs.foldl (r.addMember t module) cat).entries.map (·.1) ↔
      m ∈ cat.entries.map (·.1) ∨ m ∈ (xs.filterMap (r.entryOf? t module)).map (·.1) := by
  induction xs generalizing cat with
  | nil => simp
  | cons x xs ih =>
    rw [List.foldl_cons, ih, addMember_eq]
    cases hentry : r.entryOf? t module x with
    | none => rw [List.filterMap_cons_none hentry, Option.elim_none]
    | some y =>
      rw [List.filterMap_cons_some hentry, Option.elim_some, mem_keys_record, List.map_cons,
        List.mem_cons, or_assoc]

theorem mem_entries_foldl_addMember {m : MethodId} {e : Entry}
    (h : (m, e) ∈ (xs.foldl (r.addMember t module) cat).entries) :
    (m, e) ∈ cat.entries ∨ e.cls = r.decl := by
  refine List.foldlRecOn (motive := fun cat' : Catalog =>
    (m, e) ∈ cat'.entries → (m, e) ∈ cat.entries ∨ e.cls = r.decl) xs _ .inl ?_ h
  intro cat' ih x _ h
  rw [addMember_eq] at h
  cases hentry : r.entryOf? t module x with
  | none =>
    rw [hentry] at h
    exact ih h
  | some y =>
    rw [hentry] at h
    rcases mem_entries_record h with ⟨-, rfl⟩ | ⟨-, h⟩
    · refine .inr ?_
      cases x with
      | method d =>
        obtain ⟨m, -, rfl⟩ := Option.map_eq_some_iff.mp hentry
        rfl
      | field | initializer | nested | unknown => cases hentry
    · exact ih h

theorem mem_suppressed_foldl_addMember {s : Symbol} :
    s ∈ (xs.foldl (r.addMember t module) cat).suppressed ↔
      s ∈ cat.suppressed ∨ ∃ x ∈ xs, hushed? r.inside x = some s := by
  induction xs generalizing cat with
  | nil => simp
  | cons x xs ih =>
    rw [List.foldl_cons, ih, suppressed_addMember, List.mem_append, Option.mem_toList]
    simp only [List.mem_cons, exists_eq_or_imp]
    tauto

theorem nonPublic_foldl_addMember :
    (xs.foldl (r.addMember t module) cat).nonPublic = cat.nonPublic :=
  List.foldlRecOn (motive := fun cat' : Catalog => cat'.nonPublic = cat.nonPublic) xs _ rfl
    fun _ h _ _ => nonPublic_addMember.trans h

theorem analyzable_foldl_addMember :
    (xs.foldl (r.addMember t module) cat).analyzable = cat.analyzable :=
  List.foldlRecOn (motive := fun cat' : Catalog => cat'.analyzable = cat.analyzable) xs _ rfl
    fun _ h _ _ => analyzable_addMember.trans h

end Member

/-! ### The contents -/

/-- The catalog holds what the classes contribute, and nothing else. -/
structure Collects (t : SymbolTable) (module : Option ModuleId) (rs : List Recorded)
    (cat : Catalog) : Prop where
  entries : cat.entries = rs.flatMap (Recorded.entries t module)
  nonPublic : ∀ c, c ∈ cat.nonPublic ↔ ∃ r ∈ rs, r.inside.nonPublicOuter = true ∧ r.cls = c
  suppressed : ∀ s, s ∈ cat.suppressed ↔
    ∃ r ∈ rs, ∃ x ∈ r.decl.members, hushed? r.inside x = some s
  analyzable : cat.analyzable = (rs.filter (Recorded.starts t module)).map (·.decl)

theorem Recorded.starts_eq (r : Recorded) : r.starts t module =
    r.decl.methods.any fun d => d.sym.any fun m =>
      (classify t r.inside (isExtendable t module r.inside r.cls) r.decl d m).analyzable := by
  rw [starts, entries_eq, List.any_filterMap]
  congr 1
  funext d
  cases d.sym <;> rfl

/-- Recording a class: its symbol if it is not public, its members, and itself if the analysis
starts from one of its constructors. -/
theorem Recorded.add_eq (r : Recorded) (cat : Catalog) : r.add t module cat =
    let cat' := r.decl.members.foldl (r.addMember t module)
      { cat with nonPublic := (if r.inside.nonPublicOuter then [r.cls] else []) ++ cat.nonPublic }
    { cat' with
      analyzable := cat'.analyzable ++ if r.starts t module then [r.decl] else [] } := by
  have hbase : { cat with
      nonPublic := (if r.inside.nonPublicOuter then [r.cls] else []) ++ cat.nonPublic } =
      if r.inside.nonPublicOuter then { cat with nonPublic := r.cls :: cat.nonPublic }
      else cat := by
    split <;> rfl
  simp only [hbase, starts_eq, add, Builder.addClass]
  split
  · rfl
  · rw [List.append_nil]
    rfl

theorem Collects.add {rs : List Recorded} {cat : Catalog} (h : Collects t module rs cat)
    {r : Recorded}
    (hnodup : (((rs ++ [r]).flatMap (Recorded.entries t module)).map (·.1)).Nodup) :
    Collects t module (rs ++ [r]) (r.add t module cat) := by
  rw [Recorded.add_eq]
  constructor
  · rw [List.flatMap_append, List.flatMap_singleton, ← h.entries] at hnodup ⊢
    exact entries_foldl_addMember hnodup
  · intro c
    have hown : (c ∈ if r.inside.nonPublicOuter then [r.cls] else []) ↔
        r.inside.nonPublicOuter = true ∧ r.cls = c := by
      split <;> simp_all [@eq_comm _ c]
    simp only [nonPublic_foldl_addMember, List.mem_append, h.nonPublic, List.mem_singleton,
      or_and_right, exists_or, exists_eq_left, hown]
    exact or_comm
  · intro s
    simp only [mem_suppressed_foldl_addMember, h.suppressed, List.mem_append, List.mem_singleton,
      or_and_right, exists_or, exists_eq_left]
  · simp only [analyzable_foldl_addMember, h.analyzable, List.filter_append, List.map_append]
    congr 1
    cases hstarts : r.starts t module <;> simp [hstarts]

/-- The catalog of classes whose methods have different symbols. -/
theorem collects_foldl {rs : List Recorded}
    (hnodup : ((rs.flatMap (Recorded.entries t module)).map (·.1)).Nodup) :
    Collects t module rs (rs.foldl (Recorded.add t module) {}) := by
  induction rs using List.reverseRecOn with
  | nil => exact ⟨rfl, by simp, by simp, rfl⟩
  | append_singleton rs r ih =>
    rw [List.foldl_append]
    refine Collects.add (ih ?_) hnodup
    rw [List.flatMap_append, List.map_append] at hnodup
    exact (List.nodup_append.mp hnodup).1

/-! ### Units without repetition -/

/-- The symbols of the methods that the classes in a node declare, in order. -/
def methodSyms (n : Node) : List MethodId :=
  n.classes.flatMap fun d => d.methods.filterMap (·.sym)

/-- The classes that are recorded for a unit. -/
def recorded (t : SymbolTable) (u : CompilationUnit) (lint : Lint) : List Recorded :=
  (findings [] (.file u)).filterMap (Finding.recorded? t lint)

theorem Recorded.keys_entries (r : Recorded) :
    (r.entries t module).map (·.1) = r.decl.methods.filterMap (·.sym) := by
  rw [entries_eq, List.map_filterMap]
  congr 1
  funext d
  cases d.sym <;> rfl

theorem decls_recorded_sublist (t : SymbolTable) (u : CompilationUnit) (lint : Lint) :
    ((recorded t u lint).map (·.decl)).Sublist (Node.file u).classes := by
  have hfilter : (recorded t u lint).map (·.decl) =
      ((findings [] (.file u)).filterMap Finding.decl?).filter (·.sym.isSome) := by
    rw [recorded, List.map_filterMap, List.filter_filterMap]
    congr 1
    funext f
    cases f with
    | cls around d =>
      cases hsym : d.sym <;> simp [Finding.recorded?, Finding.decl?, Option.filter, hsym]
    | unknown => rfl
  rw [hfilter]
  exact List.filter_sublist.trans (decls_findings_sublist [] (.file u))

theorem nodup_keys_recorded {u : CompilationUnit} (hmethods : (methodSyms (.file u)).Nodup) :
    (((recorded t u lint).flatMap (Recorded.entries t module)).map (·.1)).Nodup := by
  have hsub := (decls_recorded_sublist t u lint).flatMap fun d => d.methods.filterMap (·.sym)
  rw [List.flatMap_map] at hsub
  simp only [List.map_flatMap, Recorded.keys_entries]
  exact hsub.nodup hmethods

/-- In a unit in which no class declaration occurs twice and no method is declared twice, the
catalog holds what the classes contribute that are recorded. -/
theorem collects_of_build {u : CompilationUnit} {cat : Catalog}
    (hids : ((Node.file u).classes.map (·.id)).Nodup) (hmethods : (methodSyms (.file u)).Nodup)
    (h : build t u lint = .ok cat) : Collects t u.module (recorded t u lint) cat := by
  rw [build_eq_of_nodup hids] at h
  split at h
  · cases h
  · cases h
    exact collects_foldl (nodup_keys_recorded hmethods)

theorem mem_of_lookup? {cat : Catalog} {m : MethodId} {e : Entry}
    (h : cat.lookup? (some m) = some e) : (m, e) ∈ cat.entries := by
  obtain ⟨l, l', heq, -⟩ := List.lookup_eq_some_iff.mp h
  rw [heq]
  exact List.mem_append_right _ List.mem_cons_self

theorem exists_lookup? {cat : Catalog} {m : MethodId} (h : m ∈ cat.entries.map (·.1)) :
    ∃ e, cat.lookup? (some m) = some e := by
  obtain ⟨x, hx, rfl⟩ := List.mem_map.mp h
  refine Option.ne_none_iff_exists'.mp fun hnone => ?_
  simpa using List.lookup_eq_none_iff.mp hnone x hx

/-- Where each method has one entry, it is the one that is looked up. -/
theorem lookup?_eq_some_iff_mem {cat : Catalog} (h : (cat.entries.map (·.1)).Nodup) {m : MethodId}
    {e : Entry} : cat.lookup? (some m) = some e ↔ (m, e) ∈ cat.entries := by
  refine ⟨mem_of_lookup?, fun hmem => ?_⟩
  obtain ⟨l, l', heq⟩ := List.append_of_mem hmem
  refine List.lookup_eq_some_iff.mpr ⟨l, l', heq, fun y hy => ?_⟩
  rw [heq, List.map_append, List.map_cons] at h
  have hne : m ≠ y.1 := by
    rintro rfl
    exact List.disjoint_of_nodup_append h (List.mem_map_of_mem hy) List.mem_cons_self
  simpa using hne

end Catalog

end EarlyEscape
