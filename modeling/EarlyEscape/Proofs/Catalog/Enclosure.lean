import EarlyEscape.Proofs.Catalog.Contents

/-!
# Declarations around a class

The walk over a unit collects, on its way down to a class, the declarations that it passes.  Seen
from the class these are the declarations of classes, methods of classes and variables that stand
around it.  The two agree, because in a unit in which no class declaration occurs twice only one way
leads down to a class.

## Main definitions

* `Catalog.Encloser.Encloses` : a declaration inside a node stands around a class.

## Main results

* `Catalog.mem_around_iff` : the walk collects exactly the declarations around a class.
* `Catalog.exists_finding` : the walk comes to all classes, if these have symbols and parameters of
  methods have no initializers.
-/

namespace EarlyEscape

namespace Node

variable {n b c holder : Node} {d : ClassDecl}

theorem Within.sizeOf_le (h : n.Within c) : sizeOf c ≤ sizeOf n := by
  induction h with
  | refl => exact Nat.le_refl _
  | tail _ hc ih => exact Nat.le_trans (Nat.le_of_lt (sizeOf_lt_of_mem_children hc)) ih

theorem Within.antisymm (h : n.Within c) (h' : c.Within n) : n = c := by
  rcases h.cases_head with rfl | ⟨b, hb, hbc⟩
  · rfl
  · have hlt := sizeOf_lt_of_mem_children hb
    have hle := Within.sizeOf_le (hbc.trans h')
    omega

theorem nodup_of_within (hnodup : (n.classes.map (·.id)).Nodup) (h : n.Within c) :
    (c.classes.map (·.id)).Nodup := by
  induction h with
  | refl => exact hnodup
  | tail _ hc ih => exact ((classes_sublist_of_mem_children hc).map _).nodup ih

/-- Only one child of a node leads to a class that occurs once. -/
theorem child_eq_of_within (hnodup : (n.classes.map (·.id)).Nodup) (hb : b ∈ n.children)
    (hc : c ∈ n.children) (hbd : b.Within (.ofClassDecl d)) (hcd : c.Within (.ofClassDecl d)) :
    b = c := by
  rw [classes_eq, List.map_append, List.map_flatMap] at hnodup
  refine eq_of_nodup_flatMap (List.nodup_append.mp hnodup).2.1 (x := d.id) hb ?_ hc ?_
  · exact List.mem_map_of_mem (mem_classes.mpr hbd)
  · exact List.mem_map_of_mem (mem_classes.mpr hcd)

/-- What lies on the way down to a class is the node itself, or lies in the child that leads to the
class. -/
theorem Within.eq_or_child (hnodup : (n.classes.map (·.id)).Nodup) (hc : c ∈ n.children)
    (hcd : c.Within (.ofClassDecl d)) (h : n.Within holder)
    (hd : holder.Within (.ofClassDecl d)) : holder = n ∨ c.Within holder := by
  rcases h.cases_head with rfl | ⟨b, hb, hbh⟩
  · exact .inl rfl
  · obtain rfl := child_eq_of_within hnodup hb hc (hbh.trans hd) hcd
    exact .inr hbh

end Node

namespace Catalog

/-! ### Declarations around a class -/

namespace Encloser

/-- The node of the declaration. -/
def node : Encloser → Node
  | cls d => .ofClassDecl d
  | method d => .method d
  | var d => .ofVarDecl d

/-- The node holds the declaration: a class or variable is declared by a node of its own, a method
by the class that it is a member of. -/
inductive At : Encloser → Node → Prop
  | cls (d : ClassDecl) : At (.cls d) (.ofClassDecl d)
  | method {d : ClassDecl} {md : MethodDecl} (h : md ∈ d.methods) : At (.method md) (.ofClassDecl d)
  | var (d : VarDecl) : At (.var d) (.ofVarDecl d)

/-- The declaration stands inside the node and around the class, or is that of the class itself. -/
def Encloses (e : Encloser) (root : Node) (d : ClassDecl) : Prop :=
  ∃ holder, root.Within holder ∧ e.At holder ∧ e.node.Within (.ofClassDecl d)

variable {e : Encloser} {n c root holder : Node} {d : ClassDecl}

theorem At.within (h : e.At holder) : holder.Within e.node := by
  cases h with
  | cls => exact .refl
  | method h => exact .single (Node.method_mem_children h)
  | var => exact .refl

theorem Encloses.of_within (h : e.Encloses c d) (hc : n.Within c) : e.Encloses n d := by
  obtain ⟨holder, hholder, hat, hd⟩ := h
  exact ⟨holder, hc.trans hholder, hat, hd⟩

/-- A class stands around itself only. -/
theorem Encloses.eq_of_self (h : e.Encloses (.ofClassDecl d) d) : e = .cls d := by
  obtain ⟨holder, hholder, hat, hd⟩ := h
  have heq := Node.Within.antisymm (hholder.trans hat.within) hd
  cases hat with
  | cls =>
    cases heq
    rfl
  | method | var => cases heq

end Encloser

/-! ### From a node to its parts -/

section Member

variable {x : Member} {as : List Annotation} {c holder : Node} {d : ClassDecl} {e : Encloser}

theorem within_of_codeOf (h : codeOf x = some (as, c)) : (Node.ofMember x).Within c := by
  rcases Builder.codeOf_cases h with hchild | rfl
  · exact .single hchild
  · exact .refl

/-- The declaration that a member puts around its code stands around the classes in it. -/
theorem encloses_of_mem_enclosers {d₀ : ClassDecl} (hx : x ∈ d₀.members)
    (hcode : codeOf x = some (as, c)) (hcd : c.Within (.ofClassDecl d)) (he : e ∈ enclosers x) :
    e.Encloses (.ofClassDecl d₀) d := by
  have hxd := (within_of_codeOf hcode).trans hcd
  have hmember := Node.ofMember_mem_children hx
  cases x with
  | field v =>
    obtain rfl := List.mem_singleton.mp he
    exact ⟨_, .single hmember, .var v, hxd⟩
  | method md =>
    obtain rfl := List.mem_singleton.mp he
    exact ⟨_, .refl, .method (List.mem_filterMap.mpr ⟨_, hx, rfl⟩), hxd⟩
  | initializer | nested | unknown => cases he

/-- What stands in a member and around a class in its code was put around the code or stands in
it. -/
theorem mem_enclosers_or_within (hnodup : ((Node.ofMember x).classes.map (·.id)).Nodup)
    (hcode : codeOf x = some (as, c)) (hcd : c.Within (.ofClassDecl d))
    (hh : (Node.ofMember x).Within holder) (hat : e.At holder)
    (hed : e.node.Within (.ofClassDecl d)) : e ∈ enclosers x ∨ c.Within holder := by
  have hhd := hat.within.trans hed
  cases x with
  | field v =>
    obtain ⟨init, hinit, h⟩ := Option.map_eq_some_iff.mp hcode
    cases h
    have hchild : Node.expr init ∈ (Node.ofVarDecl v).children := by
      simp [Node.children, Node.stmtChildren, hinit]
    refine (Node.Within.eq_or_child hnodup hchild hcd hh hhd).imp_left ?_
    rintro rfl
    cases hat
    exact List.mem_singleton_self _
  | method md =>
    obtain ⟨body, hbody, h⟩ := Option.map_eq_some_iff.mp hcode
    cases h
    have hchild : Node.ofBlock body ∈ (Node.method md).children := by
      simp [Node.children, hbody]
    refine (Node.Within.eq_or_child hnodup hchild hcd hh hhd).imp_left ?_
    rintro rfl
    cases hat
  | initializer | nested =>
    cases hcode
    exact .inr hh
  | unknown => cases hcode

end Member

/-- The parts of a node: its children, the value of a variable, and the code of the members of a
class. -/
theorem parts_cases {n c : Node} {es : List Encloser} (h : (es, c) ∈ parts n) :
    (c ∈ n.children ∧ es = [] ∧ (∀ d, n ≠ .ofClassDecl d) ∧ ∀ v, n ≠ .ofVarDecl v) ∨
    (∃ v, n = .ofVarDecl v ∧ c ∈ n.children ∧ es = [.var v]) ∨
    ∃ d x as, n = .ofClassDecl d ∧ x ∈ d.members ∧ codeOf x = some (as, c) ∧
      es = .cls d :: enclosers x := by
  unfold parts at h
  split at h
  · next d =>
    split at h
    · obtain ⟨x, hx, h⟩ := List.mem_flatMap.mp h
      obtain ⟨⟨as, code⟩, hcode, h⟩ := List.mem_map.mp h
      cases h
      exact .inr (.inr ⟨d, x, as, rfl, hx, Option.mem_toList.mp hcode, rfl⟩)
    · cases h
  · next v =>
    obtain ⟨init, hinit, h⟩ := List.mem_map.mp h
    cases h
    refine .inr (.inl ⟨v, rfl, ?_, rfl⟩)
    simp [Node.children, Node.stmtChildren, Option.mem_toList.mp hinit]
  · next hclass hvar =>
    obtain ⟨c, hc, h⟩ := List.mem_map.mp h
    cases h
    exact .inl ⟨hc, rfl, hclass, hvar⟩

section Part

variable {n c : Node} {es : List Encloser} {d : ClassDecl} {e : Encloser}

/-- What is put around a part of a node on the way down to a class stands around the class. -/
theorem encloses_of_mem_part (hpart : (es, c) ∈ parts n) (hcd : c.Within (.ofClassDecl d))
    (he : e ∈ es) : e.Encloses n d := by
  have hnd := (below_of_mem_parts hpart).to_reflTransGen.trans hcd
  obtain ⟨-, rfl, -, -⟩ | ⟨v, rfl, -, rfl⟩ | ⟨d₀, x, as, rfl, hx, hcode, rfl⟩ := parts_cases hpart
  · cases he
  · obtain rfl := List.mem_singleton.mp he
    exact ⟨_, .refl, .var v, hnd⟩
  · rcases List.mem_cons.mp he with rfl | he
    · exact ⟨_, .refl, .cls d₀, hnd⟩
    · exact encloses_of_mem_enclosers hx hcode hcd he

/-- What stands inside a node and around a class was put around the part that leads to the class, or
stands inside that part. -/
theorem mem_or_encloses_part (hnodup : (n.classes.map (·.id)).Nodup) (hpart : (es, c) ∈ parts n)
    (hcd : c.Within (.ofClassDecl d)) (he : e.Encloses n d) : e ∈ es ∨ e.Encloses c d := by
  obtain ⟨holder, hh, hat, hed⟩ := he
  have hhd := hat.within.trans hed
  obtain ⟨hc, -, hclass, hvar⟩ | ⟨v, rfl, hc, rfl⟩ | ⟨d₀, x, as, rfl, hx, hcode, rfl⟩ :=
    parts_cases hpart
  · rcases Node.Within.eq_or_child hnodup hc hcd hh hhd with rfl | hh
    · cases hat with
      | cls | method => exact absurd rfl (hclass _)
      | var => exact absurd rfl (hvar _)
    · exact .inr ⟨holder, hh, hat, hed⟩
  · rcases Node.Within.eq_or_child hnodup hc hcd hh hhd with rfl | hh
    · cases hat
      exact .inl (List.mem_singleton_self _)
    · exact .inr ⟨holder, hh, hat, hed⟩
  · have hmember := Node.ofMember_mem_children hx
    have hxd := (within_of_codeOf hcode).trans hcd
    rcases Node.Within.eq_or_child hnodup hmember hxd hh hhd with rfl | hh
    · cases hat with
      | cls => exact .inl List.mem_cons_self
      | @method _ md hmd =>
        -- the method that leads to the class is the member that the walk goes on to
        have heq : Node.method md = Node.ofMember x :=
          Node.child_eq_of_within hnodup (Node.method_mem_children hmd) hmember hed hxd
        cases x with
        | method =>
          cases heq
          exact .inl (List.mem_cons_of_mem _ (List.mem_singleton_self _))
        | field | initializer | nested | unknown => cases heq
    · have hnodup := Node.nodup_of_within hnodup (.single hmember)
      rcases mem_enclosers_or_within hnodup hcode hcd hh hat hed with he | hh
      · exact .inl (List.mem_cons_of_mem _ he)
      · exact .inr ⟨holder, hh, hat, hed⟩

end Part

/-- The walk collects exactly the declarations around a class. -/
theorem mem_around_iff {n : Node} (hnodup : (n.classes.map (·.id)).Nodup)
    {around a : List Encloser} {d : ClassDecl} (h : .cls a d ∈ findings around n) (e : Encloser) :
    e ∈ a ↔ e ∈ around ∨ e.Encloses n d := by
  induction n using parts_induct generalizing around with
  | step n ih =>
    rcases mem_findings.mp h with h | ⟨es, c, hc, h⟩
    · obtain ⟨rfl, rfl⟩ := cls_mem_here.mp h
      rw [List.mem_append, List.mem_singleton]
      refine or_congr_right ⟨?_, Encloser.Encloses.eq_of_self⟩
      rintro rfl
      exact ⟨_, .refl, .cls d, .refl⟩
    · have hwithin : n.Within c := (below_of_mem_parts hc).to_reflTransGen
      obtain ⟨-, -, hcd, -⟩ := of_mem_findings h
      rw [ih es c hc (Node.nodup_of_within hnodup hwithin) h, List.mem_append, or_assoc]
      refine or_congr_right ⟨?_, mem_or_encloses_part hnodup hc hcd⟩
      rintro (he | he)
      · exact encloses_of_mem_part hc hcd he
      · exact he.of_within hwithin

/-! ### All classes are found -/

theorem classes_ofVarDecl (v : VarDecl) :
    (Node.ofVarDecl v).classes = v.init.elim [] fun e => (Node.expr e).classes := by
  rw [Node.classes_eq, Node.children, Node.stmtChildren, List.flatMap_append, List.flatMap_map,
    Node.ofExpr?]
  cases v.init <;> simp [Node.classDecl?]

section Found

variable {n : Node} {d : ClassDecl}

/-- The classes in a member are those in its code, if parameters have no initializers. -/
theorem exists_code_of_mem_classes {x : Member}
    (hparams : ∀ md, x = .method md → ∀ v ∈ md.params, v.init = none)
    (hd : d ∈ (Node.ofMember x).classes) : ∃ as c, codeOf x = some (as, c) ∧ d ∈ c.classes := by
  cases x with
  | field v =>
    rw [Node.ofMember, classes_ofVarDecl] at hd
    cases hinit : v.init with
    | none => simp [hinit] at hd
    | some e =>
      rw [hinit] at hd
      exact ⟨_, _, congrArg (Option.map _) hinit, hd⟩
  | method md =>
    have hparam (v : VarDecl) (hv : v ∈ md.params) : (Node.ofVarDecl v).classes = [] := by
      rw [classes_ofVarDecl, hparams md rfl v hv]
      rfl
    rw [Node.ofMember, Node.classes_eq, Node.children] at hd
    simp only [Node.classDecl?, Option.toList_none, List.nil_append, List.flatMap_append,
      List.flatMap_map, Node.classes_annot, List.mem_append, List.mem_flatMap,
      List.not_mem_nil, and_false, exists_false, false_or] at hd
    rcases hd with ⟨v, hv, hd⟩ | ⟨c, hc, hd⟩
    · rw [hparam v hv] at hd
      cases hd
    · obtain ⟨body, hbody, rfl⟩ := Node.mem_ofBlock?.mp hc
      exact ⟨_, _, congrArg (Option.map _) hbody, hd⟩
  | initializer b => exact ⟨_, _, rfl, hd⟩
  | nested d' => exact ⟨_, _, rfl, hd⟩
  | unknown span sort =>
    rw [Node.ofMember, Node.classes_eq] at hd
    cases hd

/-- A class in a child of a node lies in a part of the node. -/
theorem exists_part_of_mem_classes (hsym : ∀ d₀, n = .ofClassDecl d₀ → d₀.sym ≠ none)
    (hparams : ∀ d₀, n = .ofClassDecl d₀ → ∀ md ∈ d₀.methods, ∀ v ∈ md.params, v.init = none)
    {b : Node} (hb : b ∈ n.children) (hd : d ∈ b.classes) :
    ∃ es c, (es, c) ∈ parts n ∧ d ∈ c.classes := by
  unfold parts
  split
  · next d₀ =>
    rw [if_pos (Option.isSome_iff_ne_none.mpr (hsym d₀ rfl))]
    rcases List.mem_append.mp hb with hb | hb
    · obtain ⟨_, -, rfl⟩ := List.mem_map.mp hb
      simp at hd
    · obtain ⟨x, hx, rfl⟩ := List.mem_map.mp hb
      obtain ⟨as, c, hcode, hc⟩ := exists_code_of_mem_classes
        (fun md heq => hparams d₀ rfl md (List.mem_filterMap.mpr ⟨x, hx, by rw [heq]⟩)) hd
      refine ⟨_, c, List.mem_flatMap.mpr ⟨x, hx, List.mem_map.mpr ⟨(as, c), ?_, rfl⟩⟩, hc⟩
      exact Option.mem_toList.mpr hcode
  · next v =>
    rcases List.mem_append.mp hb with hb | hb
    · obtain ⟨_, -, rfl⟩ := List.mem_map.mp hb
      simp at hd
    · obtain ⟨e, he, rfl⟩ := Node.mem_ofExpr?.mp hb
      exact ⟨_, _, List.mem_map.mpr ⟨e, Option.mem_toList.mpr he, rfl⟩, hd⟩
  · exact ⟨[], b, List.mem_map.mpr ⟨b, hb, rfl⟩, hd⟩

/-- The walk comes to all classes in a node, if they have symbols and the parameters of methods have
no initializers. -/
theorem exists_finding (hsym : ∀ d ∈ n.classes, d.sym ≠ none)
    (hparams : ∀ d ∈ n.classes, ∀ md ∈ d.methods, ∀ v ∈ md.params, v.init = none)
    (hd : d ∈ n.classes) (around : List Encloser) : ∃ a, .cls a d ∈ findings around n := by
  induction n using parts_induct generalizing around with
  | step n ih =>
    rcases List.mem_append.mp (Node.classes_eq n ▸ hd) with hown | hd
    · have hn := Node.classDecl?_eq_some.mp (Option.mem_toList.mp hown)
      exact ⟨_, mem_findings.mpr (.inl (cls_mem_here.mpr ⟨hn, rfl⟩))⟩
    · obtain ⟨b, hb, hd⟩ := List.mem_flatMap.mp hd
      have hself (d₀ : ClassDecl) (heq : n = .ofClassDecl d₀) : d₀ ∈ n.classes :=
        Node.mem_classes.mpr (heq ▸ .refl)
      obtain ⟨es, c, hpart, hd⟩ := exists_part_of_mem_classes
        (fun d₀ heq => hsym d₀ (hself d₀ heq)) (fun d₀ heq => hparams d₀ (hself d₀ heq)) hb hd
      have hin {d' : ClassDecl} (hd' : d' ∈ c.classes) : d' ∈ n.classes :=
        Node.mem_classes.mpr
          ((below_of_mem_parts hpart).to_reflTransGen.trans (Node.mem_classes.mp hd'))
      obtain ⟨a, ha⟩ := ih es c hpart (fun d' hd' => hsym d' (hin hd'))
        (fun d' hd' => hparams d' (hin hd')) hd (around ++ es)
      exact ⟨a, mem_findings.mpr (.inr ⟨es, c, hpart, ha⟩)⟩

end Found

end Catalog

end EarlyEscape
