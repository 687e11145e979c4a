import EarlyEscape.Proofs.Syntax.Inside
import Mathlib.Data.List.Nodup
import Mathlib.Data.List.Pairwise

/-!
# Identities of declarations

The declarations of classes and methods carry identities.  In a tree in which no identity occurs
twice, a declaration is determined by its identity, and so is the node that it stands in: the class
around a method, or the expression around the body of an anonymous class.

## Main definitions

* `Node.declIds` : the identities of the declarations inside a node.
* `Node.nodes`, `Node.classes` : the nodes and the class declarations in a node.
* `Node.Identified` : a class declaration is determined by its identity.

## Main results

* `Node.eq_of_declId?_eq` : a declaration and the node around it are determined by the identity.
* `Node.identified_of_nodup` : where no class declaration occurs twice, it is determined by its
  identity.
-/

namespace EarlyEscape.Node

/-- The identity of a node that declares a class or method. -/
def declId? : Node → Option DeclId
  | .stmt (.classDecl d) => some d.id
  | .method d => some d.id
  | _ => none

/-- The identities of the declarations inside a node, in the order of the source. -/
def declIds (n : Node) : List DeclId :=
  n.children.attach.flatMap fun c => c.1.declId?.toList ++ declIds c.1
termination_by sizeOf n
decreasing_by exact sizeOf_lt_of_mem_children c.2

theorem declIds_eq (n : Node) :
    n.declIds = n.children.flatMap fun c => c.declId?.toList ++ c.declIds := by
  rw [declIds, List.flatMap_subtype (g := fun c => c.declId?.toList ++ c.declIds) fun _ _ => rfl,
    List.unattach_attach]

/-- The second node is the first one or lies inside it. -/
def Within : Node → Node → Prop := Relation.ReflTransGen fun n c => c ∈ n.children

theorem Runs.within {n c : Node} (h : n.Runs c) : n.Within c := by
  induction h with
  | refl => exact .refl
  | tail _ hc ih => exact ih.tail hc.2

theorem mem_declIds {n p c : Node} {i : DeclId} (hp : n.Within p) (hc : c ∈ p.children)
    (hi : c.declId? = some i) : i ∈ n.declIds := by
  induction hp using Relation.ReflTransGen.head_induction_on with
  | refl =>
    rw [declIds_eq]
    exact List.mem_flatMap.mpr ⟨c, hc, by simp [hi]⟩
  | head hb _ ih =>
    rw [declIds_eq]
    exact List.mem_flatMap.mpr ⟨_, hb, List.mem_append_right _ ih⟩

theorem eq_of_nodup_flatMap {α β : Type} {l : List α} {f : α → List β}
    (h : (l.flatMap f).Nodup) {a b : α} {x : β} (ha : a ∈ l) (hxa : x ∈ f a) (hb : b ∈ l)
    (hxb : x ∈ f b) : a = b := by
  have : Std.Symm (Function.onFun List.Disjoint f) := ⟨fun _ _ h _ hy hx => h hx hy⟩
  by_contra hne
  exact (List.nodup_flatMap.mp h).2.forall ha hb hne hxa hxb

/-- Where no identity occurs twice, a declaration and the node that it stands in are determined by
the identity. -/
theorem eq_of_declId?_eq {n p p' c c' : Node} {i : DeclId} (h : n.declIds.Nodup)
    (hp : n.Within p) (hc : c ∈ p.children) (hi : c.declId? = some i)
    (hp' : n.Within p') (hc' : c' ∈ p'.children) (hi' : c'.declId? = some i) :
    p = p' ∧ c = c' := by
  revert h hp hp'
  refine Node.induct (motive := fun n => n.declIds.Nodup → n.Within p → n.Within p' →
    p = p' ∧ c = c') ?_ n
  intro n ih h hp hp'
  rw [declIds_eq] at h
  have hnodup := (List.nodup_flatMap.mp h).1
  have hown {b : Node} (hib : b.declId? = some i) : i ∈ b.declId?.toList ++ b.declIds := by
    simp [hib]
  -- a child that is a declaration itself does not hold its own identity inside
  have hself (b : Node) (hb : b ∈ n.children) (hib : b.declId? = some i) : i ∉ b.declIds := by
    have := hnodup b hb
    rw [hib] at this
    exact (List.nodup_cons.mp this).1
  rcases hp.cases_head with rfl | ⟨b, hb, hbp⟩ <;>
    rcases hp'.cases_head with rfl | ⟨b', hb', hbp'⟩
  · exact ⟨rfl, eq_of_nodup_flatMap h hc (hown hi) hc' (hown hi')⟩
  · have hin := mem_declIds hbp' hc' hi'
    obtain rfl := eq_of_nodup_flatMap h hc (hown hi) hb' (List.mem_append_right _ hin)
    exact absurd hin (hself c hb' hi)
  · have hin := mem_declIds hbp hc hi
    obtain rfl := eq_of_nodup_flatMap h hc' (hown hi') hb (List.mem_append_right _ hin)
    exact absurd hin (hself c' hb hi')
  · have hin := mem_declIds hbp hc hi
    have hin' := mem_declIds hbp' hc' hi'
    obtain rfl := eq_of_nodup_flatMap h hb (List.mem_append_right _ hin) hb'
      (List.mem_append_right _ hin')
    exact ih b hb (List.nodup_append.mp (hnodup b hb)).2.1 hbp hbp'

/-! ### Class declarations -/

/-- All nodes in a node, itself included, in the order of the source. -/
def nodes (n : Node) : List Node :=
  n :: n.children.attach.flatMap fun c => nodes c.1
termination_by sizeOf n
decreasing_by exact sizeOf_lt_of_mem_children c.2

theorem nodes_eq (n : Node) : n.nodes = n :: n.children.flatMap nodes := by
  rw [nodes, List.flatMap_subtype (g := nodes) fun _ _ => rfl, List.unattach_attach]

theorem mem_nodes {n c : Node} : c ∈ n.nodes ↔ n.Within c := by
  constructor
  · induction n using Node.induct with
    | step n ih =>
      intro h
      rw [nodes_eq] at h
      rcases List.mem_cons.mp h with rfl | h
      · exact .refl
      · obtain ⟨b, hb, h⟩ := List.mem_flatMap.mp h
        exact .head hb (ih b hb h)
  · intro h
    induction h using Relation.ReflTransGen.head_induction_on with
    | refl =>
      rw [nodes_eq]
      exact List.mem_cons_self
    | head hb _ ih =>
      rw [nodes_eq]
      exact List.mem_cons_of_mem _ (List.mem_flatMap.mpr ⟨_, hb, ih⟩)

/-- The class that a node declares. -/
def classDecl? : Node → Option ClassDecl
  | .stmt (.classDecl d) => some d
  | _ => none

theorem classDecl?_eq_some {n : Node} {d : ClassDecl} :
    n.classDecl? = some d ↔ n = .ofClassDecl d := by
  constructor
  · intro h
    unfold classDecl? at h
    split at h
    · cases h
      rfl
    · cases h
  · rintro rfl
    rfl

/-- The class declarations in a node, in the order of the source. -/
def classes (n : Node) : List ClassDecl := n.nodes.filterMap classDecl?

theorem classes_eq (n : Node) : n.classes = n.classDecl?.toList ++ n.children.flatMap classes := by
  have hrest : (n.children.flatMap nodes).filterMap classDecl? = n.children.flatMap classes :=
    List.filterMap_flatMap
  rw [classes, nodes_eq, List.filterMap_cons, hrest]
  cases n.classDecl? <;> rfl

theorem mem_classes {n : Node} {d : ClassDecl} : d ∈ n.classes ↔ n.Within (.ofClassDecl d) := by
  simp only [classes, List.mem_filterMap, classDecl?_eq_some, mem_nodes, exists_eq_right]

/-- The class declarations in the node are determined by their identities. -/
def Identified (root : Node) : Prop :=
  ∀ d d', root.Within (.ofClassDecl d) → root.Within (.ofClassDecl d') → d.id = d'.id → d = d'

theorem identified_of_nodup {n : Node} (h : (n.classes.map (·.id)).Nodup) : n.Identified :=
  fun _ _ hd hd' heq => List.inj_on_of_nodup_map h (mem_classes.mpr hd) (mem_classes.mpr hd') heq

end EarlyEscape.Node
