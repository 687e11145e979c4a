import EarlyEscape.Proofs.Interp.Parallel
import EarlyEscape.Proofs.Interp.Reach

/-!
# What an interpretation depends on

A step of the interpreter asks the catalog four questions only, and it hands on to the interpreter
only pieces that lie inside its node or in the code of a call.  Two catalogs that give the same
answers and two interpreters that agree on such pieces therefore make the same step.

## Main definitions

* `Catalog.Agrees` : two catalogs give the same answers.
* `Interp.CodeClosed` : nodes whose interpretation comes to no others.

## Main results

* `Interp.CodeClosed.step_eq` : interpreters that agree on such nodes, with catalogs that give the
  same answers, make the same steps.
* `Interp.exec_eq_of_agrees` : the interpreter depends on the answers of the catalog alone.
* `Interp.CodeClosed.of_calls` : what an interpretation comes to lies in its code.
-/

namespace EarlyEscape

/-- The second catalog gives the same answers as the first. -/
structure Catalog.Agrees (t : SymbolTable) (cat cat' : Catalog) : Prop where
  lookup : ∀ m, cat.lookup? m = cat'.lookup? m
  overrider : ∀ m c, cat.overrider? t m c = cat'.overrider? t m c
  nonPublic : ∀ c, cat.isNonPublic c = cat'.isNonPublic c
  suppressed : ∀ s, cat.isSuppressed s = cat'.isSuppressed s

theorem Catalog.agrees_self (t : SymbolTable) (cat : Catalog) : cat.Agrees t cat :=
  ⟨fun _ => rfl, fun _ _ => rfl, fun _ => rfl, fun _ => rfl⟩

namespace Interp

/-- The interpretation of a node with `Q` comes only to such nodes.  The code of a class is that of
its initializers and the bodies of its methods. -/
structure CodeClosed (env : Env) (Q : Node → Prop) : Prop where
  child : ∀ n c, Q n → (∀ d, n ≠ .ofClassDecl d) → c ∈ n.children → Q c
  initializer : ∀ d, Q (.ofClassDecl d) → ∀ x ∈ d.initializers env.table, Q (.ofMember x)
  method : ∀ d, Q (.ofClassDecl d) → ∀ md ∈ d.methods, ∀ b, md.body = some b → Q (.ofBlock b)
  entry : ∀ m e, (m, e) ∈ env.catalog.entries → Q (.ofClassDecl e.cls) ∧ e.decl ∈ e.cls.methods

/-- Whatever runs inside a node is interpreted with it. -/
theorem CodeClosed.runs {env : Env} {Q : Node → Prop} (h : CodeClosed env Q) {n c : Node}
    (hc : n.Runs c) (hn : Q n) : Q c := by
  induction hc with
  | refl => exact hn
  | tail _ hc ih =>
    refine h.child _ _ ih ?_ hc.2
    rintro d rfl
    cases hc.1

/-- The code is related to itself. -/
theorem CodeClosed.codeRel {env : Env} {Q : Node → Prop} (h : CodeClosed env Q) :
    CodeRel env.table fun n n' => n = n' ∧ Q n where
  expr := by
    rintro e _ ⟨rfl, he⟩
    refine ⟨e, rfl, rfl, ?_⟩
    cases hx : e.unparen with
    | none => exact .none
    | some x =>
      have hQ : Q (.expr x) := h.runs (Node.runs_of_unparen? hx) he
      exact .some (.of_children fun c hc => ⟨rfl, h.child _ c hQ nofun hc⟩)
  cls := by
    rintro d _ ⟨rfl, hd⟩
    refine ⟨d, rfl, rfl, rfl, rfl, ?_, ?_⟩
    · exact List.forall₂_same.mpr fun m hm => ⟨rfl, h.initializer d hd m hm⟩
    · exact List.forall₂_same.mpr fun md hmd =>
        ⟨rfl, rfl, rfl, Node.rel_self fun b hb => ⟨rfl, h.method d hd md hmd b hb⟩⟩
  form := by
    rintro n _ ⟨rfl, hn⟩ _ hclass
    exact .of_children fun c hc => ⟨rfl, h.child n c hn hclass hc⟩

/-- Interpreters that agree on the nodes of some code, with catalogs that give the same answers,
handle the same pieces alike there. -/
theorem CodeClosed.parallel {env : Env} {Q : Node → Prop} (h : CodeClosed env Q) {cat : Catalog}
    (hcat : env.catalog.Agrees env.table cat) {w w' : Walk} (hw : ∀ t, Q t.node → w t = w' t) :
    Parallel (fun n n' => n = n' ∧ Q n) env cat w w' := by
  refine ⟨h.codeRel, fun m receiver => ?_, hcat.nonPublic, hcat.suppressed, fun {t t'} hrel => ?_⟩
  · have hsame : resolve? env m receiver = resolve? { env with catalog := cat } m receiver := by
      simp only [resolve?, hcat.lookup, hcat.overrider]
    rw [← hsame]
    cases hres : resolve? env m receiver with
    | error u => exact .error
    | ok o =>
      refine .ok ?_
      cases o with
      | none => exact .none
      | some e =>
        obtain ⟨s, hs⟩ := exists_mem_of_resolve? hres
        obtain ⟨hcls, hmem⟩ := h.entry s e hs
        obtain ⟨_, ⟨⟩, hcode⟩ := h.codeRel.cls (d := e.cls) ⟨rfl, hcls⟩
        exact .some ⟨hcode, ⟨rfl, rfl, rfl, Node.rel_self fun b hb =>
          ⟨rfl, h.method _ hcls _ hmem b hb⟩⟩, rfl, rfl⟩
  · cases hrel with
    | expr hn | drop hn | stmt hn | loop hn =>
      obtain ⟨⟨⟩, hn⟩ := hn
      exact hw _ hn

/-- They make the same steps. -/
theorem CodeClosed.step_eq {env : Env} {Q : Node → Prop} (h : CodeClosed env Q) {cat : Catalog}
    (hcat : env.catalog.Agrees env.table cat) {w w' : Walk} (hw : ∀ t, Q t.node → w t = w' t)
    (passes : Nat) {t : Task} (ht : Q t.node) :
    step env w passes t = step { env with catalog := cat } w' passes t := by
  have hpar := h.parallel hcat hw
  have hexpr {e : Expr} (he : Q (.expr e)) :
      stepExpr env w e = stepExpr { env with catalog := cat } w' e :=
    hpar.stepExpr (.of_children fun c hc => ⟨rfl, h.child _ c he nofun hc⟩)
  cases t with
  | expr e => exact hexpr ht
  | drop e => simp only [step, hexpr ht]
  | stmt s => exact hpar.stepStmt ⟨rfl, ht⟩
  | loop s => simp only [step, hpar.loopPass ⟨rfl, ht⟩]

/-! ### The interpreter -/

/-- All code is closed. -/
theorem codeClosed_true {env : Env}
    (hmethods : ∀ m e, (m, e) ∈ env.catalog.entries → e.decl ∈ e.cls.methods) :
    CodeClosed env fun _ => True :=
  ⟨fun _ _ _ _ _ => trivial, fun _ _ _ _ => trivial, fun _ _ _ _ _ _ => trivial,
    fun m e he => ⟨trivial, hmethods m e he⟩⟩

/-- The interpreter depends on the answers of the catalog alone. -/
theorem exec_eq_of_agrees {env : Env} {cat : Catalog} (h : env.catalog.Agrees env.table cat)
    (hmethods : ∀ m e, (m, e) ∈ env.catalog.entries → e.decl ∈ e.cls.methods) (n : Nat) :
    exec env n = exec { env with catalog := cat } n := by
  induction n with
  | zero => rfl
  | succ n ih =>
    funext t
    exact (codeClosed_true hmethods).step_eq h (fun t _ => congrFun ih t) n trivial

/-- What the interpretation of a piece comes to lies in its code. -/
theorem CodeClosed.of_calls {env : Env} {Q : Node → Prop} (hQ : CodeClosed env Q) {t t' : Task}
    {s s' : State} (h : Calls env t s t' s') (ht : Q t.node) : Q t'.node := by
  obtain ⟨n, h⟩ := h
  by_contra hnot
  -- a planted end outside the code is never seen
  have hsame (e : Stop) :
      step env (exec env n) n t = step env (plant (exec env n) e t' s') n t := by
    refine hQ.step_eq (Catalog.agrees_self _ _) (fun t₁ ht₁ => funext fun s₁ => ?_) n ht
    refine (if_neg ?_).symm
    rintro ⟨rfl, -⟩
    exact hnot ht₁
  refine false_of_all_ends (r := step env (exec env n) n t s) fun e _ => ?_
  rw [hsame e]
  exact h e

end Interp

end EarlyEscape
