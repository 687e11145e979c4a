import EarlyEscape.Syntax.Access

/-!
# Traversal of program trees

The children of a node, in the order of the source, and the depth-first traversal that a predicate
can cut.  A traversal that comes to a node of an unknown sort cannot know its children and stops
there, unless the predicate cuts that node.

## Main definitions

* `Node.children` : the nodes that a node holds directly.
* `Visit` : the nodes met by a traversal, and the sort that ended it early.
* `Node.inspect` : the traversal.

## Main results

* `Node.sizeOf_lt_of_mem_children` : children are smaller, so recursion along them ends.
* `Node.induct` : induction along children.
-/

namespace EarlyEscape

namespace Node

/-- The expressions among optional ones, as nodes. -/
def ofExprs (es : List (Option Expr)) : List Node := es.filterMap (·.map expr)

/-- The statements among optional ones, as nodes. -/
def ofStmts (ss : List (Option Stmt)) : List Node := ss.filterMap (·.map stmt)

/-- An expression, if there is one, as a list of nodes. -/
def ofExpr? (e : Option Expr) : List Node := e.toList.map expr

/-- A statement, if there is one, as a list of nodes. -/
def ofStmt? (s : Option Stmt) : List Node := s.toList.map stmt

/-- A block, if there is one, as a list of nodes. -/
def ofBlock? (b : Option Block) : List Node := b.toList.map ofBlock

/-- The declaration of a variable, if there is one, as a list of nodes. -/
def ofVarDecl? (d : Option VarDecl) : List Node := d.toList.map ofVarDecl

/-- The nodes that an expression holds directly, in the order of the source. -/
def exprChildren : Expr → List Node
  | .ident .. | .typeName .. | .literal .. | .unknown .. => []
  | .select _ x _ _ => ofExpr? x
  | .call _ callee args => ofExpr? callee ++ ofExprs args
  | .new _ outer _ _ args body => ofExpr? outer ++ ofExprs args ++ body.toList.map ofClassDecl
  | .newArray _ _ dims elems => ofExprs dims ++ ofExprs elems
  | .assign _ lhs rhs => ofExpr? lhs ++ ofExpr? rhs
  | .assignOp _ _ lhs rhs => ofExpr? lhs ++ ofExpr? rhs
  | .unary _ _ x => ofExpr? x
  | .binary _ _ x y => ofExpr? x ++ ofExpr? y
  | .conditional _ cond yes no => ofExpr? cond ++ ofExpr? yes ++ ofExpr? no
  | .cast _ _ x => ofExpr? x
  | .instanceOf _ x _ binding => ofExpr? x ++ ofVarDecl? binding
  | .index _ x index _ => ofExpr? x ++ ofExpr? index
  | .paren _ x => ofExpr? x
  | .lambda _ params body _ => params.map ofVarDecl ++ body.toList
  | .memberRef _ x _ _ _ _ => ofExpr? x
  | .switchExpr _ selector cases => ofExpr? selector ++ cases.map switchCase

/-- The nodes that a statement holds directly, in the order of the source. -/
def stmtChildren : Stmt → List Node
  | .branch .. | .empty .. | .unknown .. => []
  | .exprStmt _ x => ofExpr? x
  | .ifElse _ cond yes no => ofExpr? cond ++ ofStmt? yes ++ ofStmt? no
  | .whileLoop _ cond body => ofExpr? cond ++ ofStmt? body
  | .doLoop _ body cond => ofStmt? body ++ ofExpr? cond
  | .forLoop _ init cond post body => ofStmts init ++ ofExpr? cond ++ ofStmts post ++ ofStmt? body
  | .forEach _ var x body => ofVarDecl? var ++ ofExpr? x ++ ofStmt? body
  | .labeled _ _ body => ofStmt? body
  | .switch _ selector cases => ofExpr? selector ++ cases.map switchCase
  | .tryCatch _ resources body catches finalizer =>
    ofStmts resources ++ ofBlock? body ++ catches.map catchClause ++ ofBlock? finalizer
  | .synchronized _ lock body => ofExpr? lock ++ ofBlock? body
  | .returnStmt _ result => ofExpr? result
  | .yieldStmt _ value => ofExpr? value
  | .throwStmt _ x => ofExpr? x
  | .assertStmt _ cond detail => ofExpr? cond ++ ofExpr? detail
  | .block b => ofStmts b.stmts
  | .varDecl d => d.annotations.map annot ++ ofExpr? d.init
  | .classDecl d => d.annotations.map annot ++ d.members.map ofMember

/-- The nodes that a node holds directly, in the order of the source. -/
def children : Node → List Node
  | expr e => exprChildren e
  | stmt s => stmtChildren s
  | method d => d.annotations.map annot ++ d.params.map ofVarDecl ++ ofBlock? d.body
  | switchCase c =>
    ofExprs c.labels ++ c.bindings.map ofVarDecl ++ ofExpr? c.guard ++ ofStmts c.body
  | catchClause c => ofVarDecl? c.param ++ ofBlock? c.body
  | annot _ => []
  | file u => u.classes.map ofClassDecl

/-! ### Children are smaller -/

@[simp] theorem mem_ofExprs {n : Node} {es : List (Option Expr)} :
    n ∈ ofExprs es ↔ ∃ e, some e ∈ es ∧ n = expr e := by
  constructor
  · intro h
    simp only [ofExprs, List.mem_filterMap, Option.map_eq_some_iff] at h
    obtain ⟨_, h, e, rfl, rfl⟩ := h
    exact ⟨e, h, rfl⟩
  · rintro ⟨e, h, rfl⟩
    exact List.mem_filterMap.mpr ⟨some e, h, rfl⟩

@[simp] theorem mem_ofStmts {n : Node} {ss : List (Option Stmt)} :
    n ∈ ofStmts ss ↔ ∃ s, some s ∈ ss ∧ n = stmt s := by
  constructor
  · intro h
    simp only [ofStmts, List.mem_filterMap, Option.map_eq_some_iff] at h
    obtain ⟨_, h, s, rfl, rfl⟩ := h
    exact ⟨s, h, rfl⟩
  · rintro ⟨s, h, rfl⟩
    exact List.mem_filterMap.mpr ⟨some s, h, rfl⟩

@[simp] theorem mem_ofExpr? {n : Node} {e : Option Expr} :
    n ∈ ofExpr? e ↔ ∃ x, e = some x ∧ n = expr x := by
  cases e <;> simp [ofExpr?]

@[simp] theorem mem_ofStmt? {n : Node} {s : Option Stmt} :
    n ∈ ofStmt? s ↔ ∃ x, s = some x ∧ n = stmt x := by
  cases s <;> simp [ofStmt?]

@[simp] theorem mem_ofBlock? {n : Node} {b : Option Block} :
    n ∈ ofBlock? b ↔ ∃ x, b = some x ∧ n = ofBlock x := by
  cases b <;> simp [ofBlock?]

@[simp] theorem mem_ofVarDecl? {n : Node} {d : Option VarDecl} :
    n ∈ ofVarDecl? d ↔ ∃ x, d = some x ∧ n = ofVarDecl x := by
  cases d <;> simp [ofVarDecl?]

private theorem sizeOf_ofExprs {n : Node} {es : List (Option Expr)} (h : n ∈ ofExprs es) :
    sizeOf n < sizeOf es := by
  obtain ⟨e, he, rfl⟩ := mem_ofExprs.mp h
  simpa using List.sizeOf_lt_of_mem he

private theorem sizeOf_ofStmts {n : Node} {ss : List (Option Stmt)} (h : n ∈ ofStmts ss) :
    sizeOf n < sizeOf ss := by
  obtain ⟨s, hs, rfl⟩ := mem_ofStmts.mp h
  simpa using List.sizeOf_lt_of_mem hs

private theorem sizeOf_ofExpr? {n : Node} {e : Option Expr} (h : n ∈ ofExpr? e) :
    sizeOf n = sizeOf e := by
  obtain ⟨e, rfl, rfl⟩ := mem_ofExpr?.mp h
  simp

private theorem sizeOf_ofStmt? {n : Node} {s : Option Stmt} (h : n ∈ ofStmt? s) :
    sizeOf n = sizeOf s := by
  obtain ⟨s, rfl, rfl⟩ := mem_ofStmt?.mp h
  simp

private theorem sizeOf_ofBlock? {n : Node} {b : Option Block} (h : n ∈ ofBlock? b) :
    sizeOf n = sizeOf b + 1 := by
  obtain ⟨b, rfl, rfl⟩ := mem_ofBlock?.mp h
  simp
  omega

private theorem sizeOf_ofVarDecl? {n : Node} {d : Option VarDecl} (h : n ∈ ofVarDecl? d) :
    sizeOf n = sizeOf d + 1 := by
  obtain ⟨d, rfl, rfl⟩ := mem_ofVarDecl?.mp h
  simp
  omega

private theorem sizeOf_mapped {α : Type} [SizeOf α] {f : α → Node} {k : Nat} {n : Node}
    {l : List α} (hf : ∀ a, sizeOf (f a) ≤ sizeOf a + k) (h : n ∈ l.map f) :
    sizeOf n < sizeOf l + k := by
  obtain ⟨a, ha, rfl⟩ := List.mem_map.mp h
  have := List.sizeOf_lt_of_mem ha
  have := hf a
  omega

private theorem sizeOf_annots {n : Node} {l : List Annotation} (h : n ∈ l.map annot) :
    sizeOf n < sizeOf l + 1 :=
  sizeOf_mapped (fun a => by simp; omega) h

private theorem sizeOf_varDecls {n : Node} {l : List VarDecl} (h : n ∈ l.map ofVarDecl) :
    sizeOf n < sizeOf l + 2 :=
  sizeOf_mapped (fun d => by simp; omega) h

private theorem sizeOf_classDecls {n : Node} {l : List ClassDecl} (h : n ∈ l.map ofClassDecl) :
    sizeOf n < sizeOf l + 2 :=
  sizeOf_mapped (fun d => by simp; omega) h

private theorem sizeOf_cases {n : Node} {l : List Case} (h : n ∈ l.map switchCase) :
    sizeOf n < sizeOf l + 1 :=
  sizeOf_mapped (fun c => by simp; omega) h

private theorem sizeOf_catches {n : Node} {l : List Catch} (h : n ∈ l.map catchClause) :
    sizeOf n < sizeOf l + 1 :=
  sizeOf_mapped (fun c => by simp; omega) h

private theorem sizeOf_members {n : Node} {l : List Member} (h : n ∈ l.map ofMember) :
    sizeOf n < sizeOf l + 1 :=
  sizeOf_mapped (fun m => by cases m <;> simp [ofMember] <;> omega) h

private theorem sizeOf_exprChild {n : Node} {e : Expr} (h : n ∈ exprChildren e) :
    sizeOf n < sizeOf e + 1 := by
  cases e <;>
    simp only [exprChildren, List.mem_append, List.not_mem_nil] at h <;>
    grind [→ sizeOf_ofExprs, → sizeOf_ofStmts, → sizeOf_ofExpr?, → sizeOf_ofStmt?,
      → sizeOf_ofBlock?, → sizeOf_ofVarDecl?, → sizeOf_varDecls, → sizeOf_classDecls,
      → sizeOf_cases]

private theorem sizeOf_stmtChild {n : Node} {s : Stmt} (h : n ∈ stmtChildren s) :
    sizeOf n < sizeOf s + 1 := by
  cases s with
  | block b =>
    cases b
    grind [stmtChildren, → sizeOf_ofStmts]
  | varDecl d =>
    cases d
    simp only [stmtChildren, List.mem_append] at h
    grind [→ sizeOf_annots, → sizeOf_ofExpr?]
  | classDecl d =>
    cases d
    simp only [stmtChildren, List.mem_append] at h
    grind [→ sizeOf_annots, → sizeOf_members]
  | _ =>
    simp only [stmtChildren, List.mem_append, List.not_mem_nil] at h <;>
      grind [→ sizeOf_ofStmts, → sizeOf_ofExpr?, → sizeOf_ofStmt?, → sizeOf_ofBlock?,
        → sizeOf_ofVarDecl?, → sizeOf_cases, → sizeOf_catches]

/-- A child is smaller than its parent. -/
theorem sizeOf_lt_of_mem_children {c n : Node} (h : c ∈ n.children) : sizeOf c < sizeOf n := by
  cases n with
  | expr e => grind [children, → sizeOf_exprChild]
  | stmt s => grind [children, → sizeOf_stmtChild]
  | method d =>
    cases d
    simp only [children, List.mem_append] at h
    grind [→ sizeOf_annots, → sizeOf_varDecls, → sizeOf_ofBlock?]
  | switchCase d =>
    cases d
    simp only [children, List.mem_append] at h
    grind [→ sizeOf_ofExprs, → sizeOf_varDecls, → sizeOf_ofExpr?, → sizeOf_ofStmts]
  | catchClause d =>
    cases d
    simp only [children, List.mem_append] at h
    grind [→ sizeOf_ofVarDecl?, → sizeOf_ofBlock?]
  | annot a => simp [children] at h
  | file u =>
    cases u
    grind [children, → sizeOf_classDecls]

/-- Induction along children: what passes from the children of a node to the node holds of every
node. -/
theorem induct {motive : Node → Prop} (step : ∀ n, (∀ c ∈ n.children, motive c) → motive n)
    (n : Node) : motive n :=
  step n fun c _ => induct step c
termination_by sizeOf n
decreasing_by exact sizeOf_lt_of_mem_children (by assumption)

end Node

/-! ### The traversal -/

/-- A traversal came to a node of an unknown sort. -/
structure UnknownNode where
  /-- The text the sort is shown as. -/
  sort : String
deriving DecidableEq, Repr

/-- The text of the error. -/
def UnknownNode.message (u : UnknownNode) : String :=
  "tree.Inspect: unexpected node type " ++ u.sort

/-- The course of a traversal: the nodes met, in order, and the error that ended it early. -/
structure Visit where
  nodes : List Node
  stop : Option UnknownNode

/-- One traversal after another; the second does not take place when the first ended early. -/
def Visit.andThen (a b : Visit) : Visit :=
  match a.stop with
  | some _ => a
  | none => ⟨a.nodes ++ b.nodes, b.stop⟩

namespace Node

/-- The depth-first traversal from a node.  It meets the node and, if `descend` holds of it, then
its children in order. -/
def inspect (descend : Node → Bool) (n : Node) : Visit :=
  if descend n then
    if n.isKnown then
      (n.children.attach.map fun c => inspect descend c.1).foldl .andThen ⟨[n], none⟩
    else ⟨[n], some ⟨n.sortText⟩⟩
  else ⟨[n], none⟩
termination_by sizeOf n
decreasing_by exact sizeOf_lt_of_mem_children c.2

end Node

end EarlyEscape
