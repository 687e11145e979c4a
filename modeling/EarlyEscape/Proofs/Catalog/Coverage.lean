import EarlyEscape.Proofs.Catalog.Contents
import EarlyEscape.Proofs.Interp.Agreement

/-!
# The code that the catalog covers

The walk that builds the catalog and the interpreter go through a unit in different ways.  The
interpreter nevertheless stays inside what the walk has visited: the parts of a visited node that
the interpreter can come to are visited, and so is all code of the catalog.

## Main definitions

* `Catalog.Builder.Complete` : the classes that were met are in the catalog.
* `Catalog.Visited` : all classes that are found inside a node were met.

## Main results

* `Catalog.exists_complete` : the walk over a unit ends with a complete catalog.
* `Catalog.codeClosed_visited` : the interpretation of visited code comes to visited code only.
-/

namespace EarlyEscape.Catalog

open Interp (Env CodeClosed)

/-! ### What was met is recorded -/

/-- The catalog has code of classes that were met, and the methods of all classes inside the node
that were met; the anonymous ones are not public. -/
structure Builder.Complete (t : SymbolTable) (root : Node) (b : Builder) : Prop where
  entry : ∀ m e, (m, e) ∈ b.catalog.entries → e.cls.id ∈ b.seen
  analyzable : ∀ d ∈ b.catalog.analyzable, d.id ∈ b.seen
  method : ∀ d, root.Within (.ofClassDecl d) → d.id ∈ b.seen → d.sym ≠ none →
    ∀ m ∈ d.methods.filterMap (·.sym), m ∈ b.catalog.entries.map (·.1)
  hidden : ∀ d c, root.Within (.ofClassDecl d) → d.id ∈ b.seen → d.sym = some c →
    (t.cls c).isAnonymous = true → c ∈ b.catalog.nonPublic

namespace Builder

variable {t : SymbolTable} {module : Option ModuleId} {lint : Lint} {root : Node} {b b' : Builder}

theorem complete_empty : Complete t root {} := ⟨nofun, nofun, nofun, nofun⟩

theorem Complete.add (h : b.Complete t root) (hids : root.Identified) {r : Recorded}
    (hd : root.Within (.ofClassDecl r.decl)) (hsym : r.decl.sym = some r.cls)
    (hhidden : (t.cls r.cls).isAnonymous = true → r.inside.nonPublicOuter = true) :
    Complete t root ⟨r.add t module b.catalog, r.decl.id :: b.seen⟩ := by
  rw [Recorded.add_eq]
  constructor
  · intro m e he
    rcases mem_entries_foldl_addMember he with he | heq
    · exact List.mem_cons_of_mem _ (h.entry m e he)
    · exact List.mem_cons.mpr (.inl (heq ▸ rfl))
  · intro d hd
    simp only [analyzable_foldl_addMember, List.mem_append] at hd
    rcases hd with hd | hd
    · exact List.mem_cons_of_mem _ (h.analyzable d hd)
    · split at hd
      · exact List.mem_cons.mpr (.inl (List.mem_singleton.mp hd ▸ rfl))
      · cases hd
  · intro d hd' hseen hne m hm
    refine mem_keys_foldl_addMember.mpr ?_
    rcases List.mem_cons.mp hseen with heq | hseen
    · obtain rfl := hids d r.decl hd' hd heq
      exact .inr ((Recorded.keys_entries r).symm ▸ hm)
    · exact .inl (h.method d hd' hseen hne m hm)
  · intro d c hd' hseen hc hanon
    simp only [nonPublic_foldl_addMember, List.mem_append]
    rcases List.mem_cons.mp hseen with heq | hseen
    · obtain rfl := hids d r.decl hd' hd heq
      obtain rfl : r.cls = c := Option.some.inj (hsym.symm.trans hc)
      simp [hhidden hanon]
    · exact .inr (h.hidden d c hd' hseen hc hanon)

/-- A class without a symbol is left alone. -/
theorem Complete.skip (h : b.Complete t root) (hids : root.Identified) {d : ClassDecl}
    (hd : root.Within (.ofClassDecl d)) (hsym : d.sym = none) :
    Complete t root { b with seen := d.id :: b.seen } := by
  have hold (d' : ClassDecl) (hd' : root.Within (.ofClassDecl d')) (hseen : d'.id ∈ d.id :: b.seen)
      (hne : d'.sym ≠ none) : d'.id ∈ b.seen := by
    rcases List.mem_cons.mp hseen with heq | hseen
    · obtain rfl := hids d' d hd' hd heq
      exact absurd hsym hne
    · exact hseen
  refine ⟨fun m e he => List.mem_cons_of_mem _ (h.entry m e he),
    fun d hd => List.mem_cons_of_mem _ (h.analyzable d hd),
    fun d' hd' hseen hne => h.method d' hd' (hold d' hd' hseen hne) hne,
    fun d' c hd' hseen hc => h.hidden d' c hd' (hold d' hd' hseen ?_) hc⟩
  simp [hc]

/-- A class that was found is in the catalog afterwards. -/
theorem Complete.meet (h : b.Complete t root) (hids : root.Identified) {f : Finding}
    (hf : f ∈ findings [] root) (hrun : meet t module lint b f = .ok b') : b'.Complete t root := by
  cases f with
  | unknown => cases hrun
  | cls around d =>
    obtain ⟨outside, rfl, hd, -⟩ := of_mem_findings hf
    rw [Builder.meet] at hrun
    split at hrun
    · cases hrun
      exact h
    · cases hsym : d.sym with
      | none =>
        rw [hsym] at hrun
        cases hrun
        exact h.skip hids hd hsym
      | some c =>
        rw [hsym] at hrun
        dsimp only at hrun
        split at hrun
        · cases hrun
        · cases hrun
          let r : Recorded := ⟨.inside t lint (outside ++ [.cls d]), d, c⟩
          change Complete t root ⟨r.add t module b.catalog, r.decl.id :: b.seen⟩
          refine h.add hids hd hsym fun hanon => ?_
          simp [r, Place.inside, Encloser.hides, hsym, show (t.cls c).isAnonymous = true from hanon]

end Builder

/-- The walk over a unit ends with a complete catalog.  It has met exactly the classes that are
found in the unit. -/
theorem exists_complete {t : SymbolTable} {u : CompilationUnit} {lint : Lint} {cat : Catalog}
    (hids : (Node.file u).Identified) (h : build t u lint = .ok cat) :
    ∃ b : Builder, b.catalog = cat ∧ b.Complete t (.file u) ∧
      (∀ f ∈ findings [] (.file u), f.Met b.seen) ∧
      ∀ i ∈ b.seen, ∃ around d, .cls around d ∈ findings [] (.file u) ∧ d.id = i := by
  rw [build_eq hids] at h
  cases hrun : (findings [] (.file u)).foldlM (Builder.meet t u.module lint) {} with
  | error e =>
    rw [hrun] at h
    cases h
  | ok b =>
    rw [hrun] at h
    cases h
    refine ⟨b, rfl, ?_, Builder.met_of_foldlM hrun, fun i hi => ?_⟩
    · exact Builder.of_foldlM_ok (fun b f b' hf hb hstep => hb.meet hids hf hstep)
        Builder.complete_empty hrun
    · exact ((Builder.mem_seen_of_foldlM hrun i).mp hi).resolve_left List.not_mem_nil

/-! ### Visited code -/

/-- The node lies in the unit, and all classes that are found inside it were met. -/
structure Visited (u : CompilationUnit) (seen : List DeclId) (n : Node) : Prop where
  within : (Node.file u).Within n
  met : ∀ f ∈ findings [] n, f.Met seen

namespace Visited

variable {u : CompilationUnit} {seen : List DeclId} {n c : Node}

/-- The parts of a visited node are visited. -/
theorem part (h : Visited u seen n) {es : List Encloser} (hc : (es, c) ∈ parts n) :
    Visited u seen c where
  within := h.within.trans (below_of_mem_parts hc).to_reflTransGen
  met := by
    have hsub : ∀ f ∈ findings es c, f.Met seen := fun f hf =>
      h.met f (mem_findings.mpr (.inr ⟨es, c, hc, hf⟩))
    exact met_findings hsub []

/-- The children of a visited node that is no class are visited. -/
theorem child (h : Visited u seen n) (hclass : ∀ d, n ≠ .ofClassDecl d) (hc : c ∈ n.children) :
    Visited u seen c := by
  by_cases hvar : ∃ d, n = .ofVarDecl d
  · obtain ⟨d, rfl⟩ := hvar
    rcases List.mem_append.mp hc with ha | he
    · obtain ⟨a, -, rfl⟩ := List.mem_map.mp ha
      refine ⟨h.within.tail hc, ?_⟩
      rw [findings_eq]
      simp [here, parts, Node.isKnown, Node.children]
    · obtain ⟨e, hinit, rfl⟩ := Node.mem_ofExpr?.mp he
      have hpart : ([.var d], .expr e) ∈ parts (.ofVarDecl d) := by simp [parts, hinit]
      exact h.part hpart
  · have hpart : ([], c) ∈ parts n := by
      unfold parts
      split
      · exact absurd rfl (hclass _)
      · exact absurd ⟨_, rfl⟩ hvar
      · exact List.mem_map_of_mem hc
    exact h.part hpart

/-- The code of a member of a visited class is visited. -/
theorem code {d : ClassDecl} (h : Visited u seen (.ofClassDecl d)) (hsym : d.sym ≠ none)
    {x : Member} (hx : x ∈ d.members) {as : List Annotation} (hcode : codeOf x = some (as, c)) :
    Visited u seen c := by
  have hpart : (.cls d :: enclosers x, c) ∈ parts (.ofClassDecl d) := by
    rw [parts, if_pos (Option.isSome_iff_ne_none.mpr hsym)]
    exact List.mem_flatMap.mpr ⟨x, hx, by simp [hcode]⟩
  exact h.part hpart

theorem varDecl {d : VarDecl} (hd : (Node.file u).Within (.ofVarDecl d)) {e : Expr}
    (he : d.init = some e) (h : Visited u seen (.expr e)) : Visited u seen (.ofVarDecl d) where
  within := hd
  met := by
    rw [findings_var, he]
    exact met_findings h.met _

end Visited

section Closed

variable {t : SymbolTable} {u : CompilationUnit} {b : Builder}

/-- A class of the unit that was met is visited. -/
theorem visited_of_mem_seen (hids : (Node.file u).Identified)
    (hmet : ∀ f ∈ findings [] (.file u), f.Met b.seen)
    (hfound : ∀ i ∈ b.seen, ∃ around d, .cls around d ∈ findings [] (.file u) ∧ d.id = i)
    {d : ClassDecl} (hd : (Node.file u).Within (.ofClassDecl d)) (hseen : d.id ∈ b.seen) :
    Visited u b.seen (.ofClassDecl d) := by
  obtain ⟨around, d', hmem, heq⟩ := hfound d.id hseen
  obtain ⟨outside, -, hd', hsub⟩ := of_mem_findings hmem
  obtain rfl := hids d' d hd' hd heq
  exact ⟨hd, met_findings (fun f hf => hmet f (hsub hf)) []⟩

/-- The interpretation of visited code comes to visited code only. -/
theorem codeClosed_visited (hsyms : ∀ d ∈ (Node.file u).classes, d.sym ≠ none) {env : Env}
    (hdescribes : env.catalog.Describes (.file u))
    (hentry : ∀ m e, (m, e) ∈ env.catalog.entries → Visited u b.seen (.ofClassDecl e.cls)) :
    CodeClosed env (Visited u b.seen) := by
  have hsym {d : ClassDecl} (hd : Visited u b.seen (.ofClassDecl d)) : d.sym ≠ none :=
    hsyms d (Node.mem_classes.mpr hd.within)
  refine ⟨fun n c hn hclass hc => hn.child hclass hc, fun d hd x hx => ?_,
    fun d hd md hmd body hbody => ?_,
    fun m e he => ⟨hentry m e he, (hdescribes.entry m e he).declared⟩⟩
  · obtain ⟨hx, hinit⟩ := List.mem_filter.mp hx
    have hmember : (Node.file u).Within (.ofMember x) :=
      hd.within.tail (Node.ofMember_mem_children hx)
    cases x with
    | field f =>
      obtain ⟨e, he⟩ := Option.isSome_iff_exists.mp (Bool.and_eq_true_iff.mp hinit).1
      have hcode : codeOf (.field f) = some (f.annotations, .expr e) := by simp [codeOf, he]
      exact .varDecl hmember he (hd.code (hsym hd) hx hcode)
    | initializer body => exact hd.code (hsym hd) hx rfl
    | method | nested | unknown => cases hinit
  · obtain ⟨x, hx, heq⟩ := List.mem_filterMap.mp hmd
    split at heq
    · cases heq
      have hcode : codeOf (.method md) = some (md.annotations, .ofBlock body) := by
        simp [codeOf, hbody]
      exact hd.code (hsym hd) hx hcode
    · cases heq

/-- The interpreter stays inside what the walk over the unit has visited, and the catalog has the
methods of all classes that were visited. -/
theorem exists_visited (env : Env) (hids : (Node.file u).Identified)
    (hsyms : ∀ d ∈ (Node.file u).classes, d.sym ≠ none) {lint : Lint}
    (h : build t u lint = .ok env.catalog) :
    ∃ seen, CodeClosed env (Visited u seen) ∧
      (∀ d ∈ env.catalog.analyzable, Visited u seen (.ofClassDecl d)) ∧
      ∀ d, Visited u seen (.ofClassDecl d) →
        (∀ m ∈ d.methods.filterMap (·.sym), m ∈ env.catalog.entries.map (·.1)) ∧
        ∀ c, d.sym = some c → (t.cls c).isAnonymous = true → c ∈ env.catalog.nonPublic := by
  have hdescribes := describes_of_build h
  obtain ⟨b, hcat, hb, hmet, hfound⟩ := exists_complete hids h
  rw [← hcat] at hdescribes ⊢
  have hvisited {d : ClassDecl} (hd : (Node.file u).Below (.ofClassDecl d))
      (hseen : d.id ∈ b.seen) : Visited u b.seen (.ofClassDecl d) :=
    visited_of_mem_seen hids hmet hfound hd.to_reflTransGen hseen
  refine ⟨b.seen, ?_, fun d hd => hvisited (hdescribes.analyzable d hd) (hb.analyzable d hd),
    fun d hd => ?_⟩
  · refine codeClosed_visited hsyms (hcat ▸ hdescribes) fun m e he => ?_
    rw [← hcat] at he
    exact hvisited (hdescribes.entry m e he).inside (hb.entry m e he)
  · have hseen : d.id ∈ b.seen :=
      hd.met (.cls [.cls d] d) (mem_findings.mpr (.inl (cls_mem_here.mpr ⟨rfl, rfl⟩)))
    exact ⟨hb.method d hd.within hseen (hsyms d (Node.mem_classes.mpr hd.within)),
      fun c => hb.hidden d c hd.within hseen⟩

end Closed

end EarlyEscape.Catalog
