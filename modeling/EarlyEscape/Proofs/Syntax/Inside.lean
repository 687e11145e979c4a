import EarlyEscape.Ref.Basic
import EarlyEscape.Syntax.Traversal
import Mathlib.Logic.Relation

/-!
# What lies inside a node

A node *runs* the nodes inside it, except for the bodies of functions and the members of classes:
those run at another time, if at all, and see other variables.  What a node may do to the
references of the running code is read off the nodes that it runs: it assigns the variables that
are targets there, returns a value if there is a return statement, and so on.

## Main definitions

* `Node.Below` : a node lies strictly inside another.
* `Node.RunsBelow`, `Node.Runs` : the same along the nodes that run.
* `Node.Targets`, `Node.Gives`, `Node.Takes`, `Node.Reads` : what a node may do to references.
* `Node.allWithin` : a check of all nodes inside.
* `Node.types` : the types that a node names itself.

## Main results

* `Node.Below.sizeOf_lt` : nodes inside are smaller.
-/

namespace EarlyEscape

namespace Node

/-- The second node lies strictly inside the first. -/
def Below : Node → Node → Prop := Relation.TransGen fun n c => c ∈ n.children

/-- Whether the children of a node run when the node does. -/
def runsChildren : Node → Bool
  | .expr (.lambda ..) => false
  | .stmt (.classDecl _) => false
  | _ => true

/-- The second node is a child of the first and runs when it does. -/
def RunsChild (n c : Node) : Prop := n.runsChildren = true ∧ c ∈ n.children

/-- The second node lies strictly inside the first and runs when it does. -/
def RunsBelow : Node → Node → Prop := Relation.TransGen RunsChild

/-- The second node is the first one, or lies inside it and runs when it does. -/
def Runs : Node → Node → Prop := Relation.ReflTransGen RunsChild

theorem RunsBelow.below {n c : Node} (h : n.RunsBelow c) : n.Below c := by
  induction h with
  | single h => exact .single h.2
  | tail _ h ih => exact .tail ih h.2

theorem RunsBelow.runs_trans {n c d : Node} (h : n.RunsBelow c) (hd : c.Runs d) : n.Runs d :=
  h.to_reflTransGen.trans hd

theorem Below.trans {n c d : Node} (h : n.Below c) (hd : c.Below d) : n.Below d :=
  Relation.TransGen.trans h hd

/-- A node inside another is smaller. -/
theorem Below.sizeOf_lt {n c : Node} (h : n.Below c) : sizeOf c < sizeOf n := by
  induction h with
  | single h => exact sizeOf_lt_of_mem_children h
  | tail _ h ih => exact Nat.lt_trans (sizeOf_lt_of_mem_children h) ih

/-- Induction along the nodes inside: what passes from all of them to the node holds of every
node. -/
theorem below_induct {motive : Node → Prop} (step : ∀ n, (∀ c, n.Below c → motive c) → motive n)
    (n : Node) : motive n :=
  step n fun c _ => below_induct step c
termination_by sizeOf n
decreasing_by exact Below.sizeOf_lt (by assumption)

/-- A member is a child of its class. -/
theorem ofMember_mem_children {d : ClassDecl} {x : Member} (h : x ∈ d.members) :
    ofMember x ∈ (ofClassDecl d).children :=
  List.mem_append_right _ (List.mem_map_of_mem h)

/-- A method is a child of its class. -/
theorem method_mem_children {d : ClassDecl} {md : MethodDecl} (h : md ∈ d.methods) :
    method md ∈ (ofClassDecl d).children := by
  obtain ⟨x, hx, h⟩ := List.mem_filterMap.mp h
  cases x with
  | method =>
    cases h
    exact ofMember_mem_children hx
  | _ => cases h

/-- The body of an anonymous class is a child of the creation of its instance. -/
theorem body_mem_children {span : Span} {outer : Option Expr} {cls : Option ClassId}
    {ctor : Option MethodId} {args : List (Option Expr)} {d : ClassDecl} :
    ofClassDecl d ∈ (expr (.new span outer cls ctor args (some d))).children :=
  List.mem_append_right _ (List.mem_singleton.mpr rfl)

/-- A property of a node and all nodes inside, down to a depth. -/
def allWithin (p : Node → Bool) : Nat → Node → Bool
  | 0, _ => false
  | k + 1, n => p n && n.children.all (allWithin p k)

theorem of_allWithin {p : Node → Bool} {k : Nat} {n : Node} (h : allWithin p k n = true) :
    p n = true ∧ ∀ c, n.Below c → p c = true := by
  induction k generalizing n with
  | zero => cases h
  | succ k ih =>
    simp only [allWithin, Bool.and_eq_true, List.all_eq_true] at h
    refine ⟨h.1, fun c hc => ?_⟩
    obtain ⟨b, hb, hbc⟩ := Relation.TransGen.head'_iff.mp hc
    rcases Relation.reflTransGen_iff_eq_or_transGen.mp hbc with rfl | hbc
    · exact (ih (h.2 _ hb)).1
    · exact (ih (h.2 b hb)).2 c hbc

/-! ### What a node does -/

/-- The node assigns a variable or declares it. -/
inductive Targets : Node → VarId → Prop
  | assign {span inner : Span} {lhs rhs : Option Expr} {name : String} {v : VarId}
      (h : unparen? lhs = some (.ident inner name (some (.var v)))) :
      Targets (.expr (.assign span lhs rhs)) v
  | declare {d : VarDecl} {v : VarId} (h : d.sym = some v) : Targets (.ofVarDecl d) v

/-- The variable that the node assigns or declares. -/
def target? : Node → Option VarId
  | .expr (.assign _ lhs _) =>
    match unparen? lhs with
    | some (.ident _ _ (some (.var v))) => some v
    | _ => none
  | .ofVarDecl d => d.sym
  | _ => none

theorem Targets.target?_eq {n : Node} {v : VarId} (h : n.Targets v) : n.target? = some v := by
  cases h with
  | assign h => simp only [target?, h]
  | declare h => exact h

/-- The node itself may hold a value in the given place. -/
inductive GivesHere : Node → Ref.Role → Prop
  | target {n : Node} {v : VarId} (h : n.Targets v) : GivesHere n (.var v)
  | returned (span : Span) (e : Expr) : GivesHere (.stmt (.returnStmt span (some e))) .returned
  | yielded (span : Span) (e : Option Expr) : GivesHere (.stmt (.yieldStmt span e)) .yielded

/-- A run of the node may hold a value in the given place. -/
def Gives (n : Node) (role : Ref.Role) : Prop := ∃ c, n.Runs c ∧ c.GivesHere role

/-- A run of the node may take values away from places of the given sort: a switch with a value
takes what is yielded. -/
def Takes (n : Node) (k : Ref.Kind) : Prop :=
  k = .yielded ∧ ∃ span selector cases, n.Runs (.expr (.switchExpr span selector cases))

/-- The node itself reads the variable: it names it, or it creates an instance of an anonymous
class, whose methods capture all variables. -/
def ReadsHere : Node → VarId → Prop
  | .expr (.ident _ _ (some (.var u))), v => u = v
  | .expr (.new _ _ _ _ _ (some _)), _ => True
  | _, _ => False

/-- A run of the node may read the variable. -/
def Reads (n : Node) (v : VarId) : Prop := ∃ c, n.Runs c ∧ c.ReadsHere v

theorem RunsBelow.reads {n c : Node} {v : VarId} (h : n.RunsBelow c) (hc : c.Reads v) :
    n.Reads v := by
  obtain ⟨d, hd, hreads⟩ := hc
  exact ⟨d, h.runs_trans hd, hreads⟩

theorem RunsBelow.gives {n c : Node} {role : Ref.Role} (h : n.RunsBelow c) (hc : c.Gives role) :
    n.Gives role := by
  obtain ⟨d, hd, hrole⟩ := hc
  exact ⟨d, h.runs_trans hd, hrole⟩

theorem RunsBelow.takes {n c : Node} {k : Ref.Kind} (h : n.RunsBelow c) (hc : c.Takes k) :
    n.Takes k := by
  obtain ⟨rfl, span, selector, cases, hd⟩ := hc
  exact ⟨rfl, span, selector, cases, h.runs_trans hd⟩

/-- A run never puts anything in the place of the receiver or of a result of an expression. -/
theorem Gives.var_returned_yielded {n : Node} {role : Ref.Role} (h : n.Gives role) :
    (∃ v, role = .var v) ∨ role = .returned ∨ role = .yielded := by
  obtain ⟨c, -, hc⟩ := h
  cases hc with
  | target => exact .inl ⟨_, rfl⟩
  | returned => exact .inr (.inl rfl)
  | yielded => exact .inr (.inr rfl)

/-! ### Types -/

/-- The types that a node names itself. -/
def types : Node → List (Option ClassId)
  | .expr (.cast _ type _) => [type]
  | .expr (.typeName _ c) => [c]
  | .expr (.new _ _ cls _ _ _) => [cls]
  | .expr (.newArray _ type _ _) => [type]
  | .expr (.index _ _ _ elem) => [elem]
  | .expr (.lambda _ _ _ type) => [type]
  | .expr (.memberRef _ _ _ _ _ type) => [type]
  | .stmt (.classDecl d) => [d.sym]
  | _ => []

/-! ### The insides of expressions and statements -/

/-- What is left of an expression without its parentheses is the expression or lies inside. -/
theorem runs_of_unparen? {x e : Expr} (h : unparen? (some x) = some e) :
    Runs (.expr x) (.expr e) := by
  revert h
  refine Node.induct (motive := fun n => ∀ x, n = .expr x → unparen? (some x) = some e →
    Runs (.expr x) (.expr e)) ?_ (.expr x) x rfl
  rintro n ih x rfl h
  cases x with
  | paren span y =>
    cases y with
    | none => simp [unparen?, Expr.unparen] at h
    | some y =>
      have hy : Node.expr y ∈ children (.expr (.paren span (some y))) := by
        simp [children, exprChildren, ofExpr?]
      exact .head ⟨rfl, hy⟩ (ih _ hy y rfl (by simpa [unparen?, Expr.unparen] using h))
  | _ =>
    simp only [unparen?, Expr.unparen, Option.some.injEq] at h
    exact h ▸ .refl

end Node

end EarlyEscape
