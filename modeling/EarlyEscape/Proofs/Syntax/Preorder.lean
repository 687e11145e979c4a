import EarlyEscape.Syntax.Traversal
import Mathlib.Data.List.Infix
import Mathlib.Data.List.Lex
import Mathlib.Data.List.ReduceOption
import Mathlib.Data.Prod.Lex

/-!
# The preorder of a tree

Where a node stands in a tree is told by its address: which field of the root leads to it and which
entry of that field, then which field of that child, and so on.  Addresses do not depend on a
traversal.  They are ordered as words are: an address comes after those above it, and two addresses
that part at a node are in the order of the fields, and of the entries, that they take there.

The preorder of a tree lists its addresses in that order, with the nodes that stand there.  A
traversal meets exactly the part of the preorder that it can reach, in order: what stands strictly
below a node that was cut is left out, and nothing else is.

## Main definitions

* `Node.fields` : what the fields of a node hold, holes included.
* `Node.at?` : the node at an address.
* `Node.IsPreorder` : the list of all occurrences in a tree.
* `Node.Reached` : no node above the address is cut.

## Main results

* `Node.children_eq` : the children of a node are the entries of its fields.
* `Node.inspect_eq_reached_preorder` : a traversal is the preorder without what lies below a cut.
-/

namespace EarlyEscape

namespace Node

/-- What the fields of a node that can hold nodes hold, field by field and in the order of the
declaration.  A field for a single child has one entry, and a hole is the entry `none`. -/
def fields : Node → List (List (Option Node))
  | .expr (.ident ..) | .expr (.typeName ..) | .expr (.literal ..) | .expr (.unknown ..) => []
  | .expr (.select _ x _ _) => [[x.map expr]]
  | .expr (.call _ callee args) => [[callee.map expr], args.map (·.map expr)]
  | .expr (.new _ outer _ _ args body) =>
    [[outer.map expr], args.map (·.map expr), [body.map ofClassDecl]]
  | .expr (.newArray _ _ dims elems) => [dims.map (·.map expr), elems.map (·.map expr)]
  | .expr (.assign _ lhs rhs) => [[lhs.map expr], [rhs.map expr]]
  | .expr (.assignOp _ _ lhs rhs) => [[lhs.map expr], [rhs.map expr]]
  | .expr (.unary _ _ x) => [[x.map expr]]
  | .expr (.binary _ _ x y) => [[x.map expr], [y.map expr]]
  | .expr (.conditional _ cond yes no) => [[cond.map expr], [yes.map expr], [no.map expr]]
  | .expr (.cast _ _ x) => [[x.map expr]]
  | .expr (.instanceOf _ x _ binding) => [[x.map expr], [binding.map ofVarDecl]]
  | .expr (.index _ x index _) => [[x.map expr], [index.map expr]]
  | .expr (.paren _ x) => [[x.map expr]]
  | .expr (.lambda _ params body _) => [params.map (some <| ofVarDecl ·), [body]]
  | .expr (.memberRef _ x _ _ _ _) => [[x.map expr]]
  | .expr (.switchExpr _ selector cases) =>
    [[selector.map expr], cases.map (some <| switchCase ·)]
  | .stmt (.branch ..) | .stmt (.empty ..) | .stmt (.unknown ..) => []
  | .stmt (.exprStmt _ x) => [[x.map expr]]
  | .stmt (.ifElse _ cond yes no) => [[cond.map expr], [yes.map stmt], [no.map stmt]]
  | .stmt (.whileLoop _ cond body) => [[cond.map expr], [body.map stmt]]
  | .stmt (.doLoop _ body cond) => [[body.map stmt], [cond.map expr]]
  | .stmt (.forLoop _ init cond post body) =>
    [init.map (·.map stmt), [cond.map expr], post.map (·.map stmt), [body.map stmt]]
  | .stmt (.forEach _ var x body) => [[var.map ofVarDecl], [x.map expr], [body.map stmt]]
  | .stmt (.labeled _ _ body) => [[body.map stmt]]
  | .stmt (.switch _ selector cases) => [[selector.map expr], cases.map (some <| switchCase ·)]
  | .stmt (.tryCatch _ resources body catches finalizer) =>
    [resources.map (·.map stmt), [body.map ofBlock], catches.map (some <| catchClause ·),
      [finalizer.map ofBlock]]
  | .stmt (.synchronized _ lock body) => [[lock.map expr], [body.map ofBlock]]
  | .stmt (.returnStmt _ result) => [[result.map expr]]
  | .stmt (.yieldStmt _ value) => [[value.map expr]]
  | .stmt (.throwStmt _ x) => [[x.map expr]]
  | .stmt (.assertStmt _ cond detail) => [[cond.map expr], [detail.map expr]]
  | .stmt (.block b) => [b.stmts.map (·.map stmt)]
  | .stmt (.varDecl d) => [d.annotations.map (some <| annot ·), [d.init.map expr]]
  | .stmt (.classDecl d) =>
    [d.annotations.map (some <| annot ·), d.members.map (some <| ofMember ·)]
  | .method d =>
    [d.annotations.map (some <| annot ·), d.params.map (some <| ofVarDecl ·),
      [d.body.map ofBlock]]
  | .switchCase c =>
    [c.labels.map (·.map expr), c.bindings.map (some <| ofVarDecl ·), [c.guard.map expr],
      c.body.map (·.map stmt)]
  | .catchClause c => [[c.param.map ofVarDecl], [c.body.map ofBlock]]
  | .annot _ => []
  | .file u => [u.classes.map (some <| ofClassDecl ·)]

/-- The place of a child in its parent: the number of the field and of the entry there. -/
abbrev Slot := ℕ ×ₗ ℕ

/-- The way from the root of a tree to a node. -/
abbrev Address := List Slot

/-- The node in a field; there is none where the field has a hole. -/
def held? (n : Node) (s : Slot) : Option Node := do (← (← n.fields[(ofLex s).1]?)[(ofLex s).2]?)

/-- The node at an address. -/
def at? : Node → Address → Option Node
  | n, [] => some n
  | n, s :: a => (n.held? s).bind (·.at? a)

/-- The list holds every occurrence of a node in the tree, once, and in the order of the
addresses. -/
structure IsPreorder (root : Node) (l : List (Address × Node)) : Prop where
  ordered : l.Pairwise fun o o' => o.1 < o'.1
  mem_iff (a : Address) (n : Node) : (a, n) ∈ l ↔ root.at? a = some n

/-- The predicate holds of all nodes strictly above an address. -/
def Reached (root : Node) (descend : Node → Bool) (a : Address) : Prop :=
  ∀ b, b <+: a → b ≠ a → ∀ n, root.at? b = some n → descend n = true

/-! ### The entries of fields -/

section Entries

variable {α : Type}

/-- The entries of fields that are no holes, in order and with their places. -/
def entries (fields : List (List (Option α))) : List (Slot × α) :=
  fields.zipIdx.flatMap fun f => f.1.zipIdx.filterMap fun e => e.1.map (toLex (f.2, e.2), ·)

theorem mem_entries {fs : List (List (Option α))} {s : Slot} {x : α} :
    (s, x) ∈ entries fs ↔
      ∃ f, fs[(ofLex s).1]? = some f ∧ f[(ofLex s).2]? = some (some x) := by
  simp only [entries, List.mem_flatMap, List.mem_filterMap, Option.map_eq_some_iff,
    Prod.exists, List.mem_zipIdx_iff_getElem?]
  constructor
  · rintro ⟨f, i, hf, _, j, hj, y, rfl, h⟩
    cases h
    exact ⟨f, hf, hj⟩
  · rintro ⟨f, hf, hj⟩
    exact ⟨f, _, hf, _, _, hj, x, rfl, rfl⟩

theorem pairwise_zipIdx (l : List α) (k : ℕ) :
    (l.zipIdx k).Pairwise fun e e' => e.2 < e'.2 := by
  have : ((l.zipIdx k).map Prod.snd).Pairwise (· < ·) := by
    rw [List.zipIdx_map_snd]
    exact List.pairwise_lt_range'
  exact List.pairwise_map.mp this

theorem entries_ordered (fs : List (List (Option α))) :
    (entries fs).Pairwise fun p p' => p.1 < p'.1 := by
  refine List.pairwise_flatMap.mpr ⟨fun f _ => ?_, ?_⟩
  · refine List.pairwise_filterMap.mpr ((pairwise_zipIdx f.1 0).imp ?_)
    rintro ⟨_, j⟩ ⟨_, j'⟩ hlt p hp p' hp'
    obtain ⟨x, rfl, rfl⟩ := Option.map_eq_some_iff.mp hp
    obtain ⟨x', rfl, rfl⟩ := Option.map_eq_some_iff.mp hp'
    exact Prod.Lex.toLex_lt_toLex.mpr (.inr ⟨rfl, hlt⟩)
  · refine (pairwise_zipIdx fs 0).imp ?_
    rintro ⟨_, i⟩ ⟨_, i'⟩ hlt p hp p' hp'
    obtain ⟨⟨_, j⟩, -, hp⟩ := List.mem_filterMap.mp hp
    obtain ⟨x, rfl, rfl⟩ := Option.map_eq_some_iff.mp hp
    obtain ⟨⟨_, j'⟩, -, hp'⟩ := List.mem_filterMap.mp hp'
    obtain ⟨x', rfl, rfl⟩ := Option.map_eq_some_iff.mp hp'
    exact Prod.Lex.toLex_lt_toLex.mpr (.inl hlt)

theorem map_snd_entries (fs : List (List (Option α))) :
    (entries fs).map Prod.snd = fs.flatMap List.reduceOption := by
  have hfield (f : List (Option α) × ℕ) :
      (f.1.zipIdx.filterMap fun e => e.1.map (toLex (f.2, e.2), ·)).map Prod.snd
        = f.1.reduceOption := by
    conv_rhs => rw [← List.zipIdx_map_fst 0 f.1]
    simp only [List.map_filterMap, List.reduceOption, List.filterMap_map]
    exact List.filterMap_congr fun ⟨x, _⟩ _ => by cases x <;> rfl
  conv_rhs => rw [← List.zipIdx_map_fst 0 fs]
  simp only [entries, List.map_flatMap, hfield, List.flatMap_map]

end Entries

theorem ofExprs_eq (es : List (Option Expr)) : ofExprs es = es.reduceOption.map expr := by
  rw [← List.reduceOption_map, List.reduceOption, List.filterMap_map]
  rfl

theorem ofStmts_eq (ss : List (Option Stmt)) : ofStmts ss = ss.reduceOption.map stmt := by
  rw [← List.reduceOption_map, List.reduceOption, List.filterMap_map]
  rfl

theorem reduceOption_some {α : Type} (f : α → Node) (l : List α) :
    (l.map (some <| f ·)).reduceOption = l.map f := by
  simp [List.reduceOption, List.filterMap_map]

/-- The children of a node are what its fields hold, field by field, without the holes. -/
theorem children_eq (n : Node) : n.children = (entries n.fields).map Prod.snd := by
  rw [map_snd_entries]
  cases n with
  | expr e =>
    cases e <;>
      simp [children, exprChildren, fields, ofExprs_eq, ofExpr?, ofVarDecl?, reduceOption_some,
        List.reduceOption_singleton, Option.toList_map]
  | stmt s =>
    cases s <;>
      simp [children, stmtChildren, fields, ofExpr?, ofVarDecl?, ofStmts_eq, ofStmt?, ofBlock?,
        reduceOption_some, List.reduceOption_singleton, Option.toList_map]
  | _ =>
    simp [children, fields, ofExprs_eq, ofExpr?, ofVarDecl?, ofStmts_eq, ofBlock?,
      reduceOption_some, List.reduceOption_singleton, Option.toList_map]

theorem mem_entries_fields {n c : Node} {s : Slot} :
    (s, c) ∈ entries n.fields ↔ n.held? s = some c := by
  rw [mem_entries]
  simp [held?, Option.bind_eq_some_iff]

theorem mem_children_of_mem_entries {n : Node} {p : Slot × Node} (h : p ∈ entries n.fields) :
    p.2 ∈ n.children :=
  children_eq n ▸ List.mem_map_of_mem h

/-! ### The preorder -/

/-- The occurrences of nodes in a tree: the root, and those in its children in their order. -/
def preorder (n : Node) : List (Address × Node) :=
  ([], n) :: (entries n.fields).attach.flatMap fun p =>
    (preorder p.1.2).map fun o => (p.1.1 :: o.1, o.2)
termination_by sizeOf n
decreasing_by exact sizeOf_lt_of_mem_children (mem_children_of_mem_entries p.2)

theorem preorder_eq (n : Node) :
    n.preorder = ([], n) :: (entries n.fields).flatMap fun p =>
      p.2.preorder.map fun o => (p.1 :: o.1, o.2) := by
  rw [preorder, List.flatMap_subtype
    (g := fun p : Slot × Node => p.2.preorder.map fun o => (p.1 :: o.1, o.2)) fun _ _ => rfl,
    List.unattach_attach]

theorem mem_preorder {root n : Node} {a : Address} :
    (a, n) ∈ root.preorder ↔ root.at? a = some n := by
  induction a generalizing root with
  | nil =>
    rw [preorder_eq]
    simp [at?, eq_comm]
  | cons s a ih =>
    rw [preorder_eq, at?]
    simp only [List.mem_cons, Prod.mk.injEq, List.cons_ne_nil, false_and, false_or,
      List.mem_flatMap, List.mem_map, Prod.exists, Option.bind_eq_some_iff]
    constructor
    · rintro ⟨_, c, hc, _, _, ho, h, rfl⟩
      obtain ⟨rfl, rfl⟩ := List.cons_eq_cons.mp h
      exact ⟨c, mem_entries_fields.mp hc, ih.mp ho⟩
    · rintro ⟨c, hc, ho⟩
      exact ⟨s, c, mem_entries_fields.mpr hc, a, n, ih.mpr ho, rfl, rfl⟩

theorem preorder_ordered (root : Node) : root.preorder.Pairwise fun o o' => o.1 < o'.1 := by
  induction root using Node.induct with
  | step n ih =>
    rw [preorder_eq]
    refine List.pairwise_cons.mpr ⟨fun o ho => ?_, List.pairwise_flatMap.mpr ⟨fun p hp => ?_, ?_⟩⟩
    · obtain ⟨p, -, ho⟩ := List.mem_flatMap.mp ho
      obtain ⟨o, -, rfl⟩ := List.mem_map.mp ho
      exact List.nil_lt_cons _ _
    · refine List.pairwise_map.mpr ((ih p.2 (mem_children_of_mem_entries hp)).imp ?_)
      exact fun h => List.cons_lt_cons_iff.mpr (.inr ⟨rfl, h⟩)
    · refine (entries_ordered n.fields).imp fun hlt o ho o' ho' => ?_
      obtain ⟨_, -, rfl⟩ := List.mem_map.mp ho
      obtain ⟨_, -, rfl⟩ := List.mem_map.mp ho'
      exact List.cons_lt_cons_iff.mpr (.inl hlt)

theorem isPreorder_preorder (root : Node) : root.IsPreorder root.preorder :=
  ⟨preorder_ordered root, fun _ _ => mem_preorder⟩

/-- A tree has one preorder. -/
theorem IsPreorder.unique {root : Node} {l l' : List (Address × Node)} (h : root.IsPreorder l)
    (h' : root.IsPreorder l') : l = l' := by
  have hasymm : ∀ o o' : Address × Node, o ∈ l → o' ∈ l' → o.1 < o'.1 → o'.1 < o.1 → o = o' :=
    fun o o' _ _ hlt hlt' => absurd hlt' (lt_asymm hlt)
  have hnodup {k : List (Address × Node)} (hk : root.IsPreorder k) : k.Nodup :=
    hk.ordered.imp fun hlt heq => hlt.ne (congrArg Prod.fst heq)
  have hperm : l.Perm l' :=
    (List.perm_ext_iff_of_nodup (hnodup h) (hnodup h')).mpr fun o =>
      (h.mem_iff o.1 o.2).trans (h'.mem_iff o.1 o.2).symm
  exact hperm.eq_of_pairwise hasymm h.ordered h'.ordered

/-! ### Traversals -/

section Traversals

variable {root n c : Node} {descend : Node → Bool}

theorem reached_nil : root.Reached descend [] := fun _ hb hne =>
  absurd (List.prefix_nil.mp hb) hne

theorem reached_cons {s : Slot} {a : Address} (hc : n.held? s = some c) :
    n.Reached descend (s :: a) ↔ descend n = true ∧ c.Reached descend a := by
  have hat (b : Address) : n.at? (s :: b) = c.at? b := by simp [at?, hc]
  constructor
  · intro h
    refine ⟨h [] List.nil_prefix (List.cons_ne_nil _ _).symm n rfl, fun b hb hne m hm => ?_⟩
    exact h (s :: b) ((List.prefix_cons_inj s).mpr hb) (by simpa using hne) m (hat b ▸ hm)
  · rintro ⟨hn, h⟩ b hb hne m hm
    rcases List.prefix_cons_iff.mp hb with rfl | ⟨b, rfl, hb'⟩
    · cases hm
      exact hn
    · exact h b hb' (by simpa using hne) m (hat b ▸ hm)

instance (a : Address) : Decidable (root.Reached descend a) :=
  decidable_of_iff (∀ b ∈ a.inits, b ≠ a → (root.at? b).all descend = true) <| by
    simp [Reached, List.mem_inits, Option.all_eq_true]

/-- The nodes of a tree that a traversal can reach, in the order of the source. -/
def reachedNodes (root : Node) (descend : Node → Bool) : List Node :=
  (root.preorder.filter fun o => root.Reached descend o.1).map Prod.snd

/-- The nodes reached from a node are the node and, unless it is cut, those reached from its
children. -/
theorem reachedNodes_eq (n : Node) (descend : Node → Bool) :
    n.reachedNodes descend =
      n :: if descend n then n.children.flatMap (·.reachedNodes descend) else [] := by
  have hchild : ∀ p ∈ entries n.fields,
      ((p.2.preorder.map fun o => (p.1 :: o.1, o.2)).filter
        fun o => n.Reached descend o.1).map Prod.snd
      = if descend n then p.2.reachedNodes descend else [] := by
    intro p hp
    have hreached (o : Address × Node) : n.Reached descend (p.1 :: o.1) ↔
        descend n = true ∧ p.2.Reached descend o.1 :=
      reached_cons (mem_entries_fields.mp hp)
    rw [List.filter_map, List.map_map]
    cases hn : descend n <;> simp [reachedNodes, Function.comp_def, hreached, hn]
  rw [reachedNodes, preorder_eq, List.filter_cons_of_pos (by simpa using reached_nil),
    List.map_cons, List.filter_flatMap, List.map_flatMap, List.flatMap_congr hchild, children_eq,
    List.flatMap_map]
  cases descend n <;> simp

theorem foldl_andThen {l : List Visit} (h : ∀ v ∈ l, v.stop = none) (ns : List Node) :
    l.foldl Visit.andThen ⟨ns, none⟩ = ⟨ns ++ l.flatMap (·.nodes), none⟩ := by
  induction l generalizing ns with
  | nil => simp
  | cons v l ih =>
    have hv : Visit.andThen ⟨ns, none⟩ v = ⟨ns ++ v.nodes, none⟩ := by
      simp [Visit.andThen, h v List.mem_cons_self]
    rw [List.foldl_cons, hv, ih fun w hw => h w (List.mem_cons_of_mem _ hw)]
    simp

/-- All nodes in the tree are of known sorts. -/
def AllKnown (root : Node) : Prop := ∀ a n, root.at? a = some n → n.isKnown = true

theorem AllKnown.child (h : n.AllKnown) (hc : c ∈ n.children) : c.AllKnown := by
  rw [children_eq] at hc
  obtain ⟨⟨s, c⟩, hs, rfl⟩ := List.mem_map.mp hc
  intro a m hm
  exact h (s :: a) m (by simpa [at?, mem_entries_fields.mp hs] using hm)

theorem inspect_eq_reachedNodes (h : root.AllKnown) (descend : Node → Bool) :
    root.inspect descend = ⟨root.reachedNodes descend, none⟩ := by
  induction root using Node.induct with
  | step n ih =>
    rw [inspect, reachedNodes_eq]
    cases descend n with
    | false => rfl
    | true =>
      have hchildren : (n.children.attach.map fun c => inspect descend c.1) =
          n.children.map fun c => ⟨c.reachedNodes descend, none⟩ :=
        List.attach_map_val.trans
          (List.map_congr_left fun c hc => ih c hc (h.child hc))
      rw [if_pos rfl, if_pos (h [] n rfl), hchildren, foldl_andThen (by simp)]
      simp [List.flatMap_map]

theorem allKnown_iff : root.AllKnown ↔ ∀ o ∈ root.preorder, o.2.isKnown = true :=
  ⟨fun h o ho => h o.1 o.2 (mem_preorder.mp ho), fun h _ _ hn => h (_, _) (mem_preorder.mpr hn)⟩

instance : Decidable root.AllKnown := decidable_of_iff _ allKnown_iff.symm

/-- A tree of known nodes has one list of all its occurrences, in which a node comes before all
that it holds and children come in the order of the fields, each exactly once.  A traversal does
not fail, and the nodes that it meets are those of this list that do not stand strictly below a
node that is cut, in the same order. -/
theorem inspect_eq_reached_preorder (known : root.AllKnown) :
    ∃ full, root.IsPreorder full ∧ (∀ l, root.IsPreorder l → l = full) ∧
      ∀ descend : Node → Bool, root.inspect descend =
        ⟨(full.filter fun o => root.Reached descend o.1).map Prod.snd, none⟩ :=
  ⟨root.preorder, isPreorder_preorder root, fun _ h => h.unique (isPreorder_preorder root),
    inspect_eq_reachedNodes known⟩

/-- A class with a constructor that has holes in its code and creates an anonymous class. -/
def sampleTree : Node :=
  .ofClassDecl ⟨⟨0⟩, ⟨1, 30⟩, none, [⟨⟨1, 2⟩, "Deprecated", []⟩],
    [.method ⟨⟨1⟩, ⟨2, 29⟩, none, [], [], some ⟨⟨3, 29⟩, false,
      [some (.varDecl ⟨⟨4, 8⟩, none, [], some (.ident ⟨5, 6⟩ "this" none)⟩), none,
        some (.ifElse ⟨9, 20⟩ (some (.literal ⟨10, 11⟩ "flag"))
          (some (.exprStmt ⟨12, 18⟩
            (some (.new ⟨12, 17⟩ none none none [none] (some ⟨⟨2⟩, ⟨13, 17⟩, none, [], []⟩)))))
          (some (.returnStmt ⟨19, 20⟩ none)))]⟩⟩]⟩

theorem inspect_sampleTree : sampleTree.AllKnown ∧
    ∃ full, sampleTree.IsPreorder full ∧ (∀ l, sampleTree.IsPreorder l → l = full) ∧
      ∀ descend : Node → Bool, sampleTree.inspect descend =
        ⟨(full.filter fun o => sampleTree.Reached descend o.1).map Prod.snd, none⟩ :=
  have known : sampleTree.AllKnown := by decide +kernel
  ⟨known, inspect_eq_reached_preorder known⟩

example : (sampleTree.inspect fun n => n.sort ≠ "New").nodes.map Node.sort =
    ["ClassDecl", "Annotation", "MethodDecl", "Block", "VarDecl", "Ident", "If", "Literal",
      "ExprStmt", "New", "Return"] := by
  decide +kernel

end Traversals

end Node

end EarlyEscape
