import EarlyEscape.Proofs.Catalog.Entries
import EarlyEscape.Proofs.Syntax.Identity

/-!
# The walk over a unit as a list of findings

The walk that builds the catalog hands two things down the tree, and it goes to a class declaration
once.  Both are separated from the tree here.  The *findings* of a node are the class declarations
that the walk comes to inside it, in order and each with the declarations around it.  If no two
class declarations of the unit have the same identity, then the walk is a fold over this list: what
lies inside a class that was met before has been met too.

## Main definitions

* `Catalog.Encloser` : a declaration that may stand around another one.
* `Catalog.parts` : the nodes that the walk goes on to from a node.
* `Catalog.findings` : the class declarations and nodes of unknown sorts that the walk comes to.
* `Catalog.Leads` : the walk goes on from one node to another.
* `Catalog.Builder.meet` : what the walk does at one of them.

## Main results

* `Catalog.unknown_mem_findings_iff` : the walk finds the unknown nodes that it comes to.
* `Catalog.Builder.visit_eq` : the walk is a fold over the findings.
* `Catalog.build_eq` : so is the making of the catalog of a unit.
-/

namespace EarlyEscape.Catalog

/-! ### Declarations around a place -/

/-- A declaration that may stand around another one. -/
inductive Encloser where
  | cls (d : ClassDecl)
  | method (d : MethodDecl)
  | var (d : VarDecl)

namespace Encloser

/-- The annotations of the declaration. -/
def annotations : Encloser → List Annotation
  | cls d => d.annotations
  | method d => d.annotations
  | var d => d.annotations

/-- Whether the declaration is that of an anonymous class or of one that is not public. -/
def hides (t : SymbolTable) : Encloser → Bool
  | cls d => d.sym.any fun c => (t.cls c).isAnonymous || !(t.cls c).isPublic
  | _ => false

end Encloser

/-- What the declarations around a place say, outermost first. -/
def Place.inside (t : SymbolTable) (lint : Lint) (around : List Encloser) : Place :=
  ⟨around.any (·.hides t), lint.augment (around.flatMap (·.annotations))⟩

namespace Place

variable {t : SymbolTable} {lint : Lint} {around : List Encloser}

theorem inside_nil : inside t lint [] = ⟨false, lint⟩ := by
  simp [inside]

theorem enterClass_inside {d : ClassDecl} {c : ClassId} (h : d.sym = some c) :
    (inside t lint around).enterClass t d c = inside t lint (around ++ [.cls d]) := by
  simp [inside, enterClass, Encloser.hides, Encloser.annotations, Lint.augment_append, h,
    Bool.or_assoc]

theorem augment_inside_var (d : VarDecl) :
    (inside t lint around).augment d.annotations = inside t lint (around ++ [.var d]) := by
  simp [inside, augment, Encloser.hides, Encloser.annotations, Lint.augment_append]

theorem augment_inside_method (d : MethodDecl) :
    (inside t lint around).augment d.annotations = inside t lint (around ++ [.method d]) := by
  simp [inside, augment, Encloser.hides, Encloser.annotations, Lint.augment_append]

end Place

/-! ### Findings -/

/-- The declaration that a member of a class puts around its code. -/
def enclosers : Member → List Encloser
  | .field d => [.var d]
  | .method d => [.method d]
  | _ => []

/-- The nodes that the walk goes on to from a node, each with the declarations that are put around
it. -/
def parts : Node → List (List Encloser × Node)
  | .stmt (.classDecl d) =>
    if d.sym.isSome then
      d.members.flatMap fun x => (codeOf x).toList.map fun code => (.cls d :: enclosers x, code.2)
    else []
  | .stmt (.varDecl d) => d.init.toList.map fun e => ([.var d], .expr e)
  | n => n.children.map ([], ·)

theorem below_of_mem_parts {n c : Node} {es : List Encloser} (h : (es, c) ∈ parts n) :
    n.Below c := by
  unfold parts at h
  split at h
  · split at h
    · obtain ⟨x, hx, h⟩ := List.mem_flatMap.mp h
      obtain ⟨code, hcode, h⟩ := List.mem_map.mp h
      cases h
      exact Builder.below_codeOf hx (Option.mem_toList.mp hcode)
    · cases h
  · next d =>
    obtain ⟨e, he, h⟩ := List.mem_map.mp h
    cases h
    exact .single (by simp [Node.children, Node.stmtChildren, Option.mem_toList.mp he])
  · obtain ⟨c, hc, h⟩ := List.mem_map.mp h
    cases h
    exact .single hc

/-- What the walk comes to. -/
inductive Finding where
  /-- A class declaration, with the declarations around it and itself, outermost first. -/
  | cls (around : List Encloser) (d : ClassDecl)
  /-- A node of an unknown sort. -/
  | unknown (u : UnknownNode)

/-- What the walk finds at a node itself. -/
def here (around : List Encloser) : Node → List Finding
  | .stmt (.classDecl d) => [.cls (around ++ [.cls d]) d]
  | n => if n.isKnown then [] else [.unknown ⟨n.sortText⟩]

/-- What the walk finds from a node on, with the given declarations around it. -/
def findings (around : List Encloser) (n : Node) : List Finding :=
  here around n ++ (parts n).attach.flatMap fun x => findings (around ++ x.1.1) x.1.2
termination_by sizeOf n
decreasing_by exact (below_of_mem_parts x.2).sizeOf_lt

theorem findings_eq (around : List Encloser) (n : Node) :
    findings around n =
      here around n ++ (parts n).flatMap fun x => findings (around ++ x.1) x.2 := by
  rw [findings, List.flatMap_subtype (g := fun x => findings (around ++ x.1) x.2) fun _ _ => rfl,
    List.unattach_attach]

theorem mem_findings {around : List Encloser} {n : Node} {f : Finding} :
    f ∈ findings around n ↔
      f ∈ here around n ∨ ∃ es c, (es, c) ∈ parts n ∧ f ∈ findings (around ++ es) c := by
  rw [findings_eq, List.mem_append, List.mem_flatMap, Prod.exists]

theorem cls_mem_here {around a : List Encloser} {n : Node} {d : ClassDecl} :
    .cls a d ∈ here around n ↔ n = .ofClassDecl d ∧ a = around ++ [.cls d] := by
  unfold here
  split
  · next d' =>
    rw [List.mem_singleton]
    constructor
    · rintro ⟨⟩
      exact ⟨rfl, rfl⟩
    · rintro ⟨⟨⟩, rfl⟩
      rfl
  · next hclass =>
    refine iff_of_false ?_ fun h => hclass d h.1
    split <;> simp

theorem unknown_mem_here {around : List Encloser} {n : Node} {x : UnknownNode} :
    .unknown x ∈ here around n ↔ n.isKnown = false ∧ x = ⟨n.sortText⟩ := by
  unfold here
  split
  · simp [Node.isKnown]
  · cases n.isKnown <;> simp

theorem findings_class (around : List Encloser) {d : ClassDecl} (h : d.sym ≠ none) :
    findings around (.ofClassDecl d) = .cls (around ++ [.cls d]) d :: d.members.flatMap fun x =>
      (codeOf x).elim [] fun code => findings (around ++ .cls d :: enclosers x) code.2 := by
  rw [findings_eq, parts, if_pos (Option.isSome_iff_ne_none.mpr h), List.flatMap_assoc]
  refine congrArg (Finding.cls _ d :: ·) (List.flatMap_congr fun x _ => ?_)
  cases codeOf x <;> simp

theorem findings_nameless (around : List Encloser) {d : ClassDecl} (h : d.sym = none) :
    findings around (.ofClassDecl d) = [.cls (around ++ [.cls d]) d] := by
  rw [findings_eq, parts, h]
  rfl

theorem findings_var (around : List Encloser) (d : VarDecl) :
    findings around (.ofVarDecl d) =
      d.init.elim [] fun e => findings (around ++ [.var d]) (.expr e) := by
  rw [findings_eq, parts]
  cases d.init <;> simp [here, Node.isKnown]

theorem findings_other (around : List Encloser) {n : Node} (hclass : ∀ d, n ≠ .ofClassDecl d)
    (hvar : ∀ d, n ≠ .ofVarDecl d) :
    findings around n = (if n.isKnown then [] else [.unknown ⟨n.sortText⟩]) ++
      n.children.flatMap (findings around) := by
  have hhere : here around n = if n.isKnown then [] else [.unknown ⟨n.sortText⟩] := by
    unfold here
    split
    · exact absurd rfl (hclass _)
    · rfl
  have hparts : parts n = n.children.map ([], ·) := by
    unfold parts
    split
    · exact absurd rfl (hclass _)
    · exact absurd rfl (hvar _)
    · rfl
  rw [findings_eq, hhere, hparts, List.flatMap_map]
  simp only [List.append_nil]

theorem findings_file (around : List Encloser) (u : CompilationUnit) :
    findings around (.file u) = u.classes.flatMap fun d => findings around (.ofClassDecl d) := by
  rw [findings_eq]
  simp [here, parts, Node.isKnown, Node.children, List.flatMap_map]

/-- Induction along the parts of a node. -/
theorem parts_induct {motive : Node → Prop}
    (step : ∀ n, (∀ es c, (es, c) ∈ parts n → motive c) → motive n) (n : Node) : motive n :=
  step n fun _ c _ => parts_induct step c
termination_by sizeOf n
decreasing_by exact (below_of_mem_parts (by assumption)).sizeOf_lt

/-- A class declaration that is found inside a node lies in it, and all that is found inside the
class is found inside the node. -/
theorem of_mem_findings {around a : List Encloser} {n : Node} {d : ClassDecl}
    (h : .cls a d ∈ findings around n) :
    ∃ outside, a = outside ++ [.cls d] ∧ n.Within (.ofClassDecl d) ∧
      findings outside (.ofClassDecl d) ⊆ findings around n := by
  induction n using parts_induct generalizing around with
  | step n ih =>
    rcases mem_findings.mp h with h | ⟨es, c, hc, h⟩
    · obtain ⟨rfl, rfl⟩ := cls_mem_here.mp h
      exact ⟨around, rfl, .refl, List.Subset.refl _⟩
    · obtain ⟨outside, ha, hd, hsub⟩ := ih es c hc h
      exact ⟨outside, ha, (below_of_mem_parts hc).to_reflTransGen.trans hd, fun f hf =>
        mem_findings.mpr (.inr ⟨es, c, hc, hsub hf⟩)⟩

/-- The walk goes on from the first node to the second. -/
def Leads (n c : Node) : Prop := ∃ es, (es, c) ∈ parts n

theorem within_of_leads {n c : Node} (h : Relation.ReflTransGen Leads n c) : n.Within c := by
  induction h with
  | refl => exact .refl
  | tail _ hc ih =>
    obtain ⟨es, hc⟩ := hc
    exact ih.trans (below_of_mem_parts hc).to_reflTransGen

/-- The walk finds the unknown nodes that it comes to. -/
theorem unknown_mem_findings_iff {around : List Encloser} {n : Node} {x : UnknownNode} :
    .unknown x ∈ findings around n ↔
      ∃ c, Relation.ReflTransGen Leads n c ∧ c.isKnown = false ∧ x = ⟨c.sortText⟩ := by
  induction n using parts_induct generalizing around with
  | step n ih =>
    rw [mem_findings, unknown_mem_here]
    constructor
    · rintro (hx | ⟨es, c, hc, hx⟩)
      · exact ⟨n, .refl, hx⟩
      · obtain ⟨d, hd, hx⟩ := (ih es c hc).mp hx
        exact ⟨d, .head ⟨es, hc⟩ hd, hx⟩
    · rintro ⟨d, hd, hx⟩
      rcases hd.cases_head with rfl | ⟨c, ⟨es, hc⟩, hd⟩
      · exact .inl hx
      · exact .inr ⟨es, c, hc, (ih es c hc).mpr ⟨d, hd, hx⟩⟩

/-- The finding is a class declaration that was met. -/
def Finding.Met (seen : List DeclId) : Finding → Prop
  | cls _ d => d.id ∈ seen
  | unknown _ => False

/-- Whether all that is found was met does not depend on the declarations around. -/
theorem met_findings {seen : List DeclId} {n : Node} {around : List Encloser}
    (h : ∀ f ∈ findings around n, f.Met seen) (around' : List Encloser) :
    ∀ f ∈ findings around' n, f.Met seen := by
  induction n using parts_induct generalizing around around' with
  | step n ih =>
    intro f hf
    rcases mem_findings.mp hf with hf | ⟨es, c, hc, hf⟩
    · cases f with
      | cls a d =>
        obtain ⟨rfl, -⟩ := cls_mem_here.mp hf
        exact h (.cls (around ++ [.cls d]) d)
          (mem_findings.mpr (.inl (cls_mem_here.mpr ⟨rfl, rfl⟩)))
      | unknown x =>
        exact h _ (mem_findings.mpr (.inl (unknown_mem_here.mpr (unknown_mem_here.mp hf))))
    · exact ih es c hc (fun f hf => h f (mem_findings.mpr (.inr ⟨es, c, hc, hf⟩))) _ f hf

/-! ### The walk -/

namespace Builder

/-- What the walk does when it comes to a finding. -/
def meet (t : SymbolTable) (module : Option ModuleId) (lint : Lint) (b : Builder) :
    Finding → Except BuildError Builder
  | .unknown u => .error (.unknownNode u)
  | .cls around d =>
    if b.seen.contains d.id then .ok b
    else
      match d.sym with
      | none => .ok { b with seen := d.id :: b.seen }
      | some c =>
        if dependsOnPackage t c && t.isStray c then .error (.untold .package)
        else .ok ⟨addClass t module (.inside t lint around) d c b.catalog, d.id :: b.seen⟩

variable {t : SymbolTable} {module : Option ModuleId} {lint : Lint} {b b' : Builder}

theorem meet_of_met {f : Finding} (h : f.Met b.seen) : meet t module lint b f = .ok b := by
  cases f with
  | cls around d =>
    rw [meet, if_pos]
    exact List.contains_iff_mem.mpr h
  | unknown => exact h.elim

theorem foldlM_meet_of_met {fs : List Finding} (h : ∀ f ∈ fs, f.Met b.seen) :
    fs.foldlM (meet t module lint) b = .ok b := by
  induction fs with
  | nil => rfl
  | cons f fs ih =>
    rw [List.foldlM_cons, meet_of_met (h f List.mem_cons_self)]
    exact ih fun f hf => h f (List.mem_cons_of_mem _ hf)

/-- After a finding was come to, the same classes were met as before, and the one that is found. -/
theorem mem_seen_of_meet {f : Finding} (h : meet t module lint b f = .ok b') :
    ∃ around d, f = .cls around d ∧ ∀ i, i ∈ b'.seen ↔ i ∈ b.seen ∨ i = d.id := by
  cases f with
  | unknown => cases h
  | cls around d =>
    refine ⟨around, d, rfl, fun i => ?_⟩
    simp only [meet] at h
    split at h
    · next hseen =>
      cases h
      refine ⟨.inl, ?_⟩
      rintro (hi | rfl)
      · exact hi
      · exact List.contains_iff_mem.mp hseen
    · split at h
      · cases h
        simp [or_comm]
      · split at h
        · cases h
        · cases h
          simp [or_comm]

/-- After a list of findings, exactly the classes in the list were met in addition. -/
theorem mem_seen_of_foldlM {fs : List Finding} (h : fs.foldlM (meet t module lint) b = .ok b')
    (i : DeclId) : i ∈ b'.seen ↔ i ∈ b.seen ∨ ∃ around d, .cls around d ∈ fs ∧ d.id = i := by
  induction fs generalizing b with
  | nil =>
    cases h
    simp
  | cons f fs ih =>
    obtain ⟨b₁, hfirst, hrest⟩ := foldlM_cons_eq_ok.mp h
    obtain ⟨around, d, rfl, hseen⟩ := mem_seen_of_meet hfirst
    rw [ih hrest, hseen]
    constructor
    · rintro ((hi | rfl) | ⟨a, d', hd', hi⟩)
      · exact .inl hi
      · exact .inr ⟨around, d, List.mem_cons_self, rfl⟩
      · exact .inr ⟨a, d', List.mem_cons_of_mem _ hd', hi⟩
    · rintro (hi | ⟨a, d', hd', rfl⟩)
      · exact .inl (.inl hi)
      · rcases List.mem_cons.mp hd' with heq | hd'
        · cases heq
          exact .inl (.inr rfl)
        · exact .inr ⟨a, d', hd', rfl⟩

/-- After a list of findings, all of them were met. -/
theorem met_of_foldlM {fs : List Finding} (h : fs.foldlM (meet t module lint) b = .ok b') :
    ∀ f ∈ fs, f.Met b'.seen := by
  induction fs generalizing b with
  | nil => exact nofun
  | cons f fs ih =>
    obtain ⟨b₁, hfirst, hrest⟩ := foldlM_cons_eq_ok.mp h
    obtain ⟨around, d, rfl, hseen⟩ := mem_seen_of_meet hfirst
    refine List.forall_mem_cons.mpr ⟨?_, ih hrest⟩
    exact (mem_seen_of_foldlM hrest d.id).mpr (.inl ((hseen d.id).mpr (.inr rfl)))

/-- All that is found inside the classes that were met, as far as these have at most the given
size, was met. -/
def Settled (b : Builder) (root : Node) (size : Nat) : Prop :=
  ∀ d, root.Within (.ofClassDecl d) → d.id ∈ b.seen → sizeOf (Node.ofClassDecl d) ≤ size →
    ∀ f ∈ findings [] (.ofClassDecl d), f.Met b.seen

variable {root n : Node} {size : Nat}

theorem settled_empty : Settled {} root size := fun _ _ hseen => nomatch hseen

theorem Settled.mono (h : b.Settled root size) {size' : Nat} (hle : size' ≤ size) :
    b.Settled root size' :=
  fun d hd hseen hsize => h d hd hseen (Nat.le_trans hsize hle)

/-- The class that is about to be entered is larger than the nodes inside. -/
theorem Settled.enter (hids : root.Identified) {d : ClassDecl} (hd : root.Within (.ofClassDecl d))
    (h : b.Settled root size) (hlt : size < sizeOf (Node.ofClassDecl d)) (cat : Catalog) :
    Settled ⟨cat, d.id :: b.seen⟩ root size := by
  intro d' hd' hseen hsize f hf
  rcases List.mem_cons.mp hseen with heq | hseen
  · obtain rfl := hids d' d hd' hd heq
    omega
  · have hmet := h d' hd' hseen hsize f hf
    cases f with
    | cls => exact List.mem_cons_of_mem _ hmet
    | unknown => exact hmet

/-- The walk through a node keeps that the classes that were met are settled. -/
theorem Settled.foldlM (hids : root.Identified) (hn : root.Within n) (h : b.Settled root size)
    {around : List Encloser}
    (hrun : (findings around n).foldlM (meet t module lint) b = .ok b') : b'.Settled root size := by
  have hseen := mem_seen_of_foldlM hrun
  have hmono {f : Finding} (hf : f.Met b.seen) : f.Met b'.seen := by
    cases f with
    | cls _ d => exact (hseen d.id).mpr (.inl hf)
    | unknown => exact hf
  intro d hd hmem hsize
  rcases (hseen d.id).mp hmem with hold | ⟨a, d', hfound, heq⟩
  · exact fun f hf => hmono (h d hd hold hsize f hf)
  · -- a class that is new was found inside the node, with all that is inside it
    obtain ⟨outside, -, hd', hsub⟩ := of_mem_findings hfound
    obtain rfl := hids d' d (hn.trans hd') hd heq
    exact met_findings (fun f hf => met_of_foldlM hrun f (hsub hf)) []

/-- A fold whose every step is a fold over findings is a fold over all of them. -/
theorem foldlM_eq {α : Type} {step : Builder → α → Except BuildError Builder}
    {found : α → List Finding} {l : List α} {I : Builder → Prop}
    (hstep : ∀ a ∈ l, ∀ b, I b → step b a = (found a).foldlM (meet t module lint) b)
    (hkeep : ∀ a ∈ l, ∀ b b', I b → (found a).foldlM (meet t module lint) b = .ok b' → I b')
    (hb : I b) : l.foldlM step b = (l.flatMap found).foldlM (meet t module lint) b := by
  induction l generalizing b with
  | nil => rfl
  | cons a l ih =>
    rw [List.foldlM_cons, List.flatMap_cons, List.foldlM_append, hstep a List.mem_cons_self b hb]
    cases hfirst : (found a).foldlM (meet t module lint) b with
    | error e => rfl
    | ok b₁ =>
      exact ih (fun x hx => hstep x (List.mem_cons_of_mem _ hx))
        (fun x hx => hkeep x (List.mem_cons_of_mem _ hx))
        (hkeep a List.mem_cons_self b b₁ hb hfirst)

theorem foldlM_attach_eq {α : Type} {l : List α}
    {step : Builder → { a // a ∈ l } → Except BuildError Builder} {found : α → List Finding}
    {I : Builder → Prop} (hstep : ∀ a b, I b → step b a = (found a.1).foldlM (meet t module lint) b)
    (hkeep : ∀ a ∈ l, ∀ b b', I b → (found a).foldlM (meet t module lint) b = .ok b' → I b')
    (hb : I b) : l.attach.foldlM step b = (l.flatMap found).foldlM (meet t module lint) b := by
  have hfound : l.flatMap found = l.attach.flatMap fun a => found a.1 := by
    rw [List.flatMap_subtype (g := found) fun _ _ => rfl, List.unattach_attach]
  rw [hfound]
  exact foldlM_eq (fun a _ => hstep a) (fun a _ => hkeep a.1 a.2) hb

/-- The place inside a member of a class. -/
theorem augment_inside_member {around : List Encloser} {d : ClassDecl} {c : ClassId}
    (hc : d.sym = some c) {x : Member} {as : List Annotation} {code : Node}
    (h : codeOf x = some (as, code)) :
    ((Place.inside t lint around).enterClass t d c).augment as =
      .inside t lint (around ++ .cls d :: enclosers x) := by
  rw [Place.enterClass_inside hc]
  cases x with
  | field fd =>
    obtain ⟨e, -, h⟩ := Option.map_eq_some_iff.mp h
    cases h
    rw [Place.augment_inside_var, List.append_assoc]
    rfl
  | method md =>
    obtain ⟨body, -, h⟩ := Option.map_eq_some_iff.mp h
    cases h
    rw [Place.augment_inside_method, List.append_assoc]
    rfl
  | initializer | nested =>
    cases h
    rw [Place.augment, Lint.augment_nil]
    rfl
  | unknown => cases h

/-- If the class declarations are determined by their identities, the walk is a fold over what it
finds. -/
theorem visit_eq (hids : root.Identified) (hn : root.Within n) (around : List Encloser)
    (hb : b.Settled root (sizeOf n)) :
    visit t module (.inside t lint around) n b =
      (findings around n).foldlM (meet t module lint) b := by
  generalize hp : Place.inside t lint around = p
  fun_induction visit t module p n b generalizing around
  case case1 b d hseen =>
    refine (foldlM_meet_of_met ?_).symm
    exact met_findings (hb d hn (List.contains_iff_mem.mp hseen) (Nat.le_refl _)) around
  case case2 b d hseen _ hsym =>
    rw [← Node.ofClassDecl, findings_nameless around hsym, List.foldlM_cons, meet, if_neg hseen,
      hsym]
    rfl
  case case3 b d hseen c hc hstray =>
    rw [← Node.ofClassDecl, findings_class around (by simp [hc]), List.foldlM_cons, meet,
      if_neg hseen, hc]
    simp only [hstray, if_true]
    rfl
  case case4 b d hseen _ c hc hstray inside b₁ ih =>
    have hfirst : meet t module lint b (.cls (around ++ [.cls d]) d) = .ok b₁ := by
      rw [meet, if_neg hseen, hc]
      simp only [if_neg hstray, ← Place.enterClass_inside hc, hp]
      rfl
    rw [← Node.ofClassDecl, findings_class around (by simp [hc]), List.foldlM_cons, hfirst]
    -- the class is larger than the nodes inside, so that it does not have to be settled there
    refine foldlM_attach_eq (I := (Settled · root (sizeOf (Node.ofClassDecl d) - 1)))
      (fun x b hb => ?_) (fun x hx b b' hb hrun => ?_) ?_
    · split
      · next hcode =>
        rw [hcode]
        rfl
      · next as code hcode =>
        have hbelow := below_codeOf x.2 hcode
        rw [hcode, Option.elim_some]
        refine ih b x as code hcode (hn.trans hbelow.to_reflTransGen) _ ?_ ?_
        · exact hb.mono (Nat.le_sub_one_of_lt hbelow.sizeOf_lt)
        · rw [← augment_inside_member hc hcode, hp]
    · cases hcode : codeOf x with
      | none =>
        rw [hcode] at hrun
        cases hrun
        exact hb
      | some code =>
        rw [hcode] at hrun
        exact hb.foldlM hids (hn.trans (below_codeOf hx hcode).to_reflTransGen) hrun
    · exact Settled.enter hids hn (hb.mono (Nat.sub_le _ 1)) (Nat.sub_one_lt (by simp)) _
  case case5 b d hinit =>
    rw [← Node.ofVarDecl, findings_var, hinit]
    rfl
  case case6 b d e hinit ih =>
    have hchild : Node.expr e ∈ (Node.ofVarDecl d).children := by
      simp [Node.children, Node.stmtChildren, hinit]
    rw [← Node.ofVarDecl, findings_var, hinit]
    refine ih (hn.tail hchild) _ (hb.mono (Nat.le_of_lt (Node.sizeOf_lt_of_mem_children hchild))) ?_
    rw [← hp, Place.augment_inside_var]
  case case7 b n hclass hvar hknown ih =>
    rw [findings_other around hclass hvar, if_pos hknown, List.nil_append]
    refine foldlM_attach_eq (I := (Settled · root (sizeOf n))) (fun c b hb => ?_)
      (fun c hc b b' hb hrun => hb.foldlM hids (hn.tail hc) hrun) hb
    exact ih b c (hn.tail c.2) around
      (hb.mono (Nat.le_of_lt (Node.sizeOf_lt_of_mem_children c.2))) hp
  case case8 b n hclass hvar hunknown =>
    rw [findings_other around hclass hvar, if_neg hunknown]
    rfl

end Builder

/-- If the class declarations of a unit are determined by their identities, its catalog is made by
a fold over what the walk finds in it. -/
theorem build_eq {t : SymbolTable} {u : CompilationUnit} (hids : (Node.file u).Identified)
    (lint : Lint) :
    build t u lint =
      ((findings [] (.file u)).foldlM (Builder.meet t u.module lint) {}).map (·.catalog) := by
  have hwalk : u.classes.foldlM
      (fun b d => Builder.visit t u.module ⟨false, lint⟩ (.ofClassDecl d) b) {} =
      (findings [] (.file u)).foldlM (Builder.meet t u.module lint) {} := by
    have hchild {d : ClassDecl} (hd : d ∈ u.classes) : (Node.file u).Within (.ofClassDecl d) :=
      .single (List.mem_map_of_mem hd)
    rw [findings_file]
    refine Builder.foldlM_eq (I := fun b => ∀ size, b.Settled (.file u) size)
      (fun d hd b hb => ?_) (fun d hd b b' hb hrun size => (hb size).foldlM hids (hchild hd) hrun)
      fun _ => Builder.settled_empty
    rw [← Place.inside_nil]
    exact Builder.visit_eq hids (hchild hd) [] (hb _)
  unfold build
  rw [hwalk]
  cases (findings [] (.file u)).foldlM (Builder.meet t u.module lint) {} <;> rfl

end EarlyEscape.Catalog
