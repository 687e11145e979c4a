import EarlyEscape.Proofs.Syntax.Inside
import Mathlib.Data.List.Forall2

/-!
# Nodes of the same form

Two nodes have the same form if they differ in their parts at most, and the parts that stand in the
same place are related.  A property of pairs of trees is then said of one level of the trees at a
time, and a relation that passes through all forms is a congruence.

Three places of a tree are read without regard to what the expression there does: the name of the
callee of a call, whether a statement calls another constructor, and whether the operand of a
for-each loop creates an instance.  Nodes of the same form agree on them.

## Main definitions

* `Node.SameForm` : the two nodes have the same form and related parts.

## Main results

* `Node.SameForm.of_children` : a node has the form of itself.
* `Node.SameForm.children` : the children of nodes of the same form are related.
-/

namespace EarlyEscape

open Function

/-- Whether an expression calls a constructor of the same class. -/
def Expr.callsThis : Expr → Bool
  | .call _ callee _ => nameOf callee == "this"
  | _ => false

/-- Whether an expression creates an instance. -/
def Expr.isNew : Expr → Bool
  | .new .. => true
  | _ => false

namespace Node

variable {R : Node → Node → Prop}

/-- The two nodes have the same form, and `R` relates the parts of the first to those of the
second. -/
inductive SameForm (R : Node → Node → Prop) : Node → Node → Prop
  | ident {span name sym} : SameForm R (.expr (.ident span name sym)) (.expr (.ident span name sym))
  | select {span x x' name sym} (hx : Option.Rel (R on expr) x x') :
      SameForm R (.expr (.select span x name sym)) (.expr (.select span x' name sym))
  | typeName {span sym} : SameForm R (.expr (.typeName span sym)) (.expr (.typeName span sym))
  | call {span callee callee' args args'} (hcallee : Option.Rel (R on expr) callee callee')
      (hname : nameOf callee = nameOf callee')
      (hargs : List.Forall₂ (Option.Rel (R on expr)) args args') :
      SameForm R (.expr (.call span callee args)) (.expr (.call span callee' args'))
  | new {span outer outer' cls ctor args args' body body'}
      (houter : Option.Rel (R on expr) outer outer')
      (hargs : List.Forall₂ (Option.Rel (R on expr)) args args')
      (hbody : Option.Rel (R on ofClassDecl) body body') :
      SameForm R (.expr (.new span outer cls ctor args body))
        (.expr (.new span outer' cls ctor args' body'))
  | newArray {span type dims dims' elems elems'}
      (hdims : List.Forall₂ (Option.Rel (R on expr)) dims dims')
      (helems : List.Forall₂ (Option.Rel (R on expr)) elems elems') :
      SameForm R (.expr (.newArray span type dims elems)) (.expr (.newArray span type dims' elems'))
  | assign {span lhs lhs' rhs rhs'} (hlhs : Option.Rel (R on expr) lhs lhs')
      (hrhs : Option.Rel (R on expr) rhs rhs') :
      SameForm R (.expr (.assign span lhs rhs)) (.expr (.assign span lhs' rhs'))
  | assignOp {span op lhs lhs' rhs rhs'} (hlhs : Option.Rel (R on expr) lhs lhs')
      (hrhs : Option.Rel (R on expr) rhs rhs') :
      SameForm R (.expr (.assignOp span op lhs rhs)) (.expr (.assignOp span op lhs' rhs'))
  | unary {span op x x'} (hx : Option.Rel (R on expr) x x') :
      SameForm R (.expr (.unary span op x)) (.expr (.unary span op x'))
  | binary {span op x x' y y'} (hx : Option.Rel (R on expr) x x')
      (hy : Option.Rel (R on expr) y y') :
      SameForm R (.expr (.binary span op x y)) (.expr (.binary span op x' y'))
  | conditional {span cond cond' yes yes' no no'} (hcond : Option.Rel (R on expr) cond cond')
      (hyes : Option.Rel (R on expr) yes yes') (hno : Option.Rel (R on expr) no no') :
      SameForm R (.expr (.conditional span cond yes no)) (.expr (.conditional span cond' yes' no'))
  | cast {span type x x'} (hx : Option.Rel (R on expr) x x') :
      SameForm R (.expr (.cast span type x)) (.expr (.cast span type x'))
  | instanceOf {span x x' type binding binding'} (hx : Option.Rel (R on expr) x x')
      (hbinding : Option.Rel (R on ofVarDecl) binding binding') :
      SameForm R (.expr (.instanceOf span x type binding))
        (.expr (.instanceOf span x' type binding'))
  | index {span x x' i i' elem} (hx : Option.Rel (R on expr) x x')
      (hi : Option.Rel (R on expr) i i') :
      SameForm R (.expr (.index span x i elem)) (.expr (.index span x' i' elem))
  | paren {span x x'} (hx : Option.Rel (R on expr) x x') :
      SameForm R (.expr (.paren span x)) (.expr (.paren span x'))
  | lambda {span params params' body body' type}
      (hparams : List.Forall₂ (R on ofVarDecl) params params') (hbody : Option.Rel R body body') :
      SameForm R (.expr (.lambda span params body type)) (.expr (.lambda span params' body' type))
  | memberRef {span x x' name sym kind type} (hx : Option.Rel (R on expr) x x') :
      SameForm R (.expr (.memberRef span x name sym kind type))
        (.expr (.memberRef span x' name sym kind type))
  | switchExpr {span selector selector' cases cases'}
      (hselector : Option.Rel (R on expr) selector selector')
      (hcases : List.Forall₂ (R on switchCase) cases cases') :
      SameForm R (.expr (.switchExpr span selector cases))
        (.expr (.switchExpr span selector' cases'))
  | literal {span value} : SameForm R (.expr (.literal span value)) (.expr (.literal span value))
  | unknownExpr {span sort} : SameForm R (.expr (.unknown span sort)) (.expr (.unknown span sort))
  | exprStmt {span x x'} (hx : Option.Rel (R on expr) x x')
      (hthis : x.any Expr.callsThis = x'.any Expr.callsThis) :
      SameForm R (.stmt (.exprStmt span x)) (.stmt (.exprStmt span x'))
  | ifElse {span cond cond' yes yes' no no'} (hcond : Option.Rel (R on expr) cond cond')
      (hyes : Option.Rel (R on stmt) yes yes') (hno : Option.Rel (R on stmt) no no') :
      SameForm R (.stmt (.ifElse span cond yes no)) (.stmt (.ifElse span cond' yes' no'))
  | whileLoop {span cond cond' body body'} (hcond : Option.Rel (R on expr) cond cond')
      (hbody : Option.Rel (R on stmt) body body') :
      SameForm R (.stmt (.whileLoop span cond body)) (.stmt (.whileLoop span cond' body'))
  | doLoop {span body body' cond cond'} (hbody : Option.Rel (R on stmt) body body')
      (hcond : Option.Rel (R on expr) cond cond') :
      SameForm R (.stmt (.doLoop span body cond)) (.stmt (.doLoop span body' cond'))
  | forLoop {span init init' cond cond' post post' body body'}
      (hinit : List.Forall₂ (Option.Rel (R on stmt)) init init')
      (hcond : Option.Rel (R on expr) cond cond')
      (hpost : List.Forall₂ (Option.Rel (R on stmt)) post post')
      (hbody : Option.Rel (R on stmt) body body') :
      SameForm R (.stmt (.forLoop span init cond post body))
        (.stmt (.forLoop span init' cond' post' body'))
  | forEach {span var var' x x' body body'} (hvar : Option.Rel (R on ofVarDecl) var var')
      (hx : Option.Rel (R on expr) x x') (hnew : x.any Expr.isNew = x'.any Expr.isNew)
      (hbody : Option.Rel (R on stmt) body body') :
      SameForm R (.stmt (.forEach span var x body)) (.stmt (.forEach span var' x' body'))
  | labeled {span label body body'} (hbody : Option.Rel (R on stmt) body body') :
      SameForm R (.stmt (.labeled span label body)) (.stmt (.labeled span label body'))
  | switch {span selector selector' cases cases'}
      (hselector : Option.Rel (R on expr) selector selector')
      (hcases : List.Forall₂ (R on switchCase) cases cases') :
      SameForm R (.stmt (.switch span selector cases)) (.stmt (.switch span selector' cases'))
  | tryCatch {span resources resources' body body' catches catches' finalizer finalizer'}
      (hresources : List.Forall₂ (Option.Rel (R on stmt)) resources resources')
      (hbody : Option.Rel (R on ofBlock) body body')
      (hcatches : List.Forall₂ (R on catchClause) catches catches')
      (hfinalizer : Option.Rel (R on ofBlock) finalizer finalizer') :
      SameForm R (.stmt (.tryCatch span resources body catches finalizer))
        (.stmt (.tryCatch span resources' body' catches' finalizer'))
  | synchronized {span lock lock' body body'} (hlock : Option.Rel (R on expr) lock lock')
      (hbody : Option.Rel (R on ofBlock) body body') :
      SameForm R (.stmt (.synchronized span lock body)) (.stmt (.synchronized span lock' body'))
  | returnStmt {span x x'} (hx : Option.Rel (R on expr) x x') :
      SameForm R (.stmt (.returnStmt span x)) (.stmt (.returnStmt span x'))
  | yieldStmt {span x x'} (hx : Option.Rel (R on expr) x x') :
      SameForm R (.stmt (.yieldStmt span x)) (.stmt (.yieldStmt span x'))
  | throwStmt {span x x'} (hx : Option.Rel (R on expr) x x') :
      SameForm R (.stmt (.throwStmt span x)) (.stmt (.throwStmt span x'))
  | branch {span kind label} :
      SameForm R (.stmt (.branch span kind label)) (.stmt (.branch span kind label))
  | assertStmt {span cond cond' detail detail'} (hcond : Option.Rel (R on expr) cond cond')
      (hdetail : Option.Rel (R on expr) detail detail') :
      SameForm R (.stmt (.assertStmt span cond detail)) (.stmt (.assertStmt span cond' detail'))
  | empty {span} : SameForm R (.stmt (.empty span)) (.stmt (.empty span))
  | block {span isStatic stmts stmts'}
      (hstmts : List.Forall₂ (Option.Rel (R on stmt)) stmts stmts') :
      SameForm R (.ofBlock ⟨span, isStatic, stmts⟩) (.ofBlock ⟨span, isStatic, stmts'⟩)
  | varDecl {span sym annotations init init'} (hinit : Option.Rel (R on expr) init init') :
      SameForm R (.ofVarDecl ⟨span, sym, annotations, init⟩)
        (.ofVarDecl ⟨span, sym, annotations, init'⟩)
  | classDecl {id span sym annotations members members'}
      (hmembers : List.Forall₂ (R on ofMember) members members') :
      SameForm R (.ofClassDecl ⟨id, span, sym, annotations, members⟩)
        (.ofClassDecl ⟨id, span, sym, annotations, members'⟩)
  | unknownStmt {span sort} : SameForm R (.stmt (.unknown span sort)) (.stmt (.unknown span sort))
  | method {id span sym annotations params params' body body'}
      (hparams : List.Forall₂ (R on ofVarDecl) params params')
      (hbody : Option.Rel (R on ofBlock) body body') :
      SameForm R (.method ⟨id, span, sym, annotations, params, body⟩)
        (.method ⟨id, span, sym, annotations, params', body'⟩)
  | switchCase {span labels labels' bindings bindings' guard guard' body body'}
      (hlabels : List.Forall₂ (Option.Rel (R on expr)) labels labels')
      (hbindings : List.Forall₂ (R on ofVarDecl) bindings bindings')
      (hguard : Option.Rel (R on expr) guard guard')
      (hbody : List.Forall₂ (Option.Rel (R on stmt)) body body') :
      SameForm R (.switchCase ⟨span, labels, bindings, guard, body⟩)
        (.switchCase ⟨span, labels', bindings', guard', body'⟩)
  | catchClause {span param param' body body'} (hparam : Option.Rel (R on ofVarDecl) param param')
      (hbody : Option.Rel (R on ofBlock) body body') :
      SameForm R (.catchClause ⟨span, param, body⟩) (.catchClause ⟨span, param', body'⟩)
  | annot {a} : SameForm R (.annot a) (.annot a)
  | file {span name package module classes classes'}
      (hclasses : List.Forall₂ (R on ofClassDecl) classes classes') :
      SameForm R (.file ⟨span, name, package, module, classes⟩)
        (.file ⟨span, name, package, module, classes'⟩)

namespace SameForm

variable {n n' : Node}

theorem span_eq (h : SameForm R n n') : n.span = n'.span := by
  cases h <;> rfl

theorem isKnown_eq (h : SameForm R n n') : n.isKnown = n'.isKnown := by
  cases h <;> rfl

theorem sortText_eq (h : SameForm R n n') : n.sortText = n'.sortText := by
  cases h <;> rfl

end SameForm

/-! ### Parts and children -/

section Parts

variable {α : Type} {f : α → Node}

theorem rel_self {x : Option α} (h : ∀ a, x = some a → R (f a) (f a)) :
    Option.Rel (R on f) x x := by
  cases x with
  | none => exact .none
  | some a => exact .some (h a rfl)

theorem forall₂_rel_self {l : List (Option α)} (h : ∀ a, some a ∈ l → R (f a) (f a)) :
    List.Forall₂ (Option.Rel (R on f)) l l :=
  List.forall₂_same.mpr fun _ hx => rel_self fun a ha => h a (ha ▸ hx)

theorem forall₂_of_rel {x x' : Option α} (h : Option.Rel (R on f) x x') :
    List.Forall₂ R (x.toList.map f) (x'.toList.map f) := by
  cases h with
  | none => exact .nil
  | some h => exact .cons h .nil

theorem forall₂_map {l l' : List α} (h : List.Forall₂ (R on f) l l') :
    List.Forall₂ R (l.map f) (l'.map f) :=
  List.forall₂_map_left_iff.mpr (List.forall₂_map_right_iff.mpr h)

theorem forall₂_filterMap {l l' : List (Option α)}
    (h : List.Forall₂ (Option.Rel (R on f)) l l') :
    List.Forall₂ R (l.filterMap (·.map f)) (l'.filterMap (·.map f)) := by
  refine List.rel_filterMap (fun x x' hx => ?_) h
  cases hx with
  | none => exact .none
  | some hx => exact .some hx

end Parts

namespace SameForm

variable {n n' : Node}

/-- A node has the form of itself, with related parts if its children are related to themselves. -/
theorem of_children (h : ∀ c ∈ n.children, R c c) : SameForm R n n := by
  cases n with
  | expr e =>
    simp only [Node.children] at h
    cases e <;> constructor <;> first
      | rfl
      | exact rel_self fun a ha => h _ (by simp [exprChildren, ha])
      | exact forall₂_rel_self fun a ha => h _ (by simp [exprChildren, ha])
      | exact List.forall₂_same.mpr fun a ha => h _ (by simp [exprChildren, ha])
  | stmt s =>
    simp only [Node.children] at h
    cases s with
    | block b =>
      cases b
      exact .block (forall₂_rel_self fun a ha => h _ (by simp [stmtChildren, ha]))
    | varDecl d =>
      cases d
      exact .varDecl (rel_self fun a ha => h _ (by simp [stmtChildren, ha]))
    | classDecl d =>
      cases d
      exact .classDecl (List.forall₂_same.mpr fun a ha =>
        h _ (List.mem_append_right _ (List.mem_map_of_mem ha)))
    | _ =>
      constructor <;> first
        | rfl
        | exact rel_self fun a ha => h _ (by simp [stmtChildren, ha])
        | exact forall₂_rel_self fun a ha => h _ (by simp [stmtChildren, ha])
        | exact List.forall₂_same.mpr fun a ha => h _ (by simp [stmtChildren, ha])
  | method d | switchCase d | catchClause d | annot d | file d =>
    cases d
    constructor <;> first
      | exact rel_self fun a ha => h _ (by simp [Node.children, ha])
      | exact forall₂_rel_self fun a ha => h _ (by simp [Node.children, ha])
      | exact List.forall₂_same.mpr fun a ha => h _ (by simp [Node.children, ha])

/-- The children of nodes of the same form are related.  Annotations are children as well, and they
are the same. -/
theorem children (h : SameForm R n n') (hannot : ∀ a, R (.annot a) (.annot a)) :
    List.Forall₂ R n.children n'.children := by
  have hannots (l : List Annotation) : List.Forall₂ R (l.map Node.annot) (l.map Node.annot) :=
    forall₂_map (List.forall₂_same.mpr fun a _ => hannot a)
  have hbody {body body' : Option Node} (hbody : Option.Rel R body body') :
      List.Forall₂ R body.toList body'.toList := by
    simpa using forall₂_of_rel (f := id) hbody
  cases h <;> simp only [Node.children, exprChildren, stmtChildren]
  all_goals
    repeat' first
      | exact List.Forall₂.nil
      | exact hannots _
      | exact forall₂_of_rel ‹_›
      | exact forall₂_map ‹_›
      | exact forall₂_filterMap ‹_›
      | exact hbody ‹_›
      | refine List.rel_append ?_ ?_

end SameForm

end Node

end EarlyEscape
