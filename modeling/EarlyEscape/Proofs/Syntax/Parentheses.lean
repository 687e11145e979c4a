import EarlyEscape.Proofs.Syntax.Form

/-!
# Trees with parentheses added

The second of two trees is the first one with parentheses around some of its expressions, each with
the source range of what it holds.  The callee of a call keeps its name, which it would lose in
parentheses; likewise the call of another constructor stays one, and the operand of a for-each loop
that creates an instance still does so.  Everything else may be wrapped any number of times.

## Main definitions

* `Node.WithParens` : the second node is the first one with parentheses added.

## Main results

* `Node.WithParens.refl` : there need not be any, so they may be added in a single place.
* `Node.WithParens.unparen` : without parentheses, expressions have the same form.
-/

namespace EarlyEscape

open Function

namespace Node

/-- The second node is the first one with parentheses added. -/
inductive WithParens : Node → Node → Prop
  | same {n n' : Node} (h : SameForm WithParens n n') : WithParens n n'
  | paren {e e' : Expr} (h : WithParens (.expr e) (.expr e')) :
      WithParens (.expr e) (.expr (.paren e.span (some e')))

namespace WithParens

variable {n n' : Node}

theorem refl (n : Node) : WithParens n n :=
  induct (motive := fun n => WithParens n n) (fun _ ih => .same (.of_children ih)) n

/-- Parentheses are added around expressions only. -/
theorem form (h : WithParens n n') (hn : ∀ e, n ≠ .expr e) : SameForm WithParens n n' := by
  cases h with
  | same h => exact h
  | paren => exact absurd rfl (hn _)

/-- An expression with parentheses added stands where it stood, and without them it has the same
form. -/
theorem unparen {e : Expr} (h : WithParens (.expr e) n') :
    ∃ e', n' = .expr e' ∧ e.span = e'.span ∧
      Option.Rel (SameForm WithParens on .expr) e.unparen e'.unparen := by
  induction n' using induct generalizing e with
  | step n' ih =>
    cases h with
    | same h =>
      cases hform : h with
      | @paren span x x' hx =>
        refine ⟨_, rfl, rfl, ?_⟩
        cases hx with
        | none => exact .none
        | some hx =>
          obtain ⟨_, ⟨⟩, -, hrest⟩ := ih _ (by simp [Node.children, exprChildren]) hx
          exact hrest
      | _ => exact ⟨_, rfl, rfl, .some h⟩
    | @paren _ e' h =>
      obtain ⟨_, ⟨⟩, -, hrest⟩ := ih _ (by simp [Node.children, exprChildren]) h
      exact ⟨_, rfl, rfl, hrest⟩

/-! ### Declarations -/

theorem varDecl {d d' : VarDecl} (h : WithParens (.ofVarDecl d) (.ofVarDecl d')) :
    d.sym = d'.sym ∧ d.annotations = d'.annotations ∧
      Option.Rel (WithParens on .expr) d.init d'.init := by
  cases h.form nofun with
  | varDecl hinit => exact ⟨rfl, rfl, hinit⟩

theorem method {d d' : MethodDecl} (h : WithParens (.method d) (.method d')) :
    d.id = d'.id ∧ d.sym = d'.sym ∧ d.annotations = d'.annotations ∧
      d.params.map (·.sym) = d'.params.map (·.sym) ∧
      Option.Rel (WithParens on ofBlock) d.body d'.body := by
  cases h.form nofun with
  | @method _ _ _ _ params params' _ _ hparams hbody =>
    refine ⟨rfl, rfl, rfl, ?_, hbody⟩
    rw [← List.forall₂_eq_eq_eq, List.forall₂_map_left_iff, List.forall₂_map_right_iff]
    exact hparams.imp fun _ _ hp => (varDecl hp).1

end WithParens

/-- The second member of a class is the first one with parentheses added. -/
inductive MemberWithParens : Member → Member → Prop
  | field {d d' : VarDecl} (h : WithParens (.ofVarDecl d) (.ofVarDecl d')) :
      MemberWithParens (.field d) (.field d')
  | method {d d' : MethodDecl} (h : WithParens (.method d) (.method d')) :
      MemberWithParens (.method d) (.method d')
  | initializer {b b' : Block} (h : WithParens (.ofBlock b) (.ofBlock b')) :
      MemberWithParens (.initializer b) (.initializer b')
  | nested {d d' : ClassDecl} (h : WithParens (.ofClassDecl d) (.ofClassDecl d')) :
      MemberWithParens (.nested d) (.nested d')
  | unknown {span sort} : MemberWithParens (.unknown span sort) (.unknown span sort)

namespace WithParens

/-- A member of a class stays a member of its sort. -/
theorem member {m m' : Member} (h : WithParens (.ofMember m) (.ofMember m')) :
    MemberWithParens m m' := by
  have hform : SameForm WithParens (.ofMember m) (.ofMember m') :=
    h.form fun e he => by cases m <;> cases he
  cases m with
  | field d =>
    cases m' with
    | field d' => exact .field h
    | _ => cases hform
  | method d =>
    cases m' with
    | method d' => exact .method h
    | _ => cases hform
  | initializer b =>
    cases m' with
    | initializer b' => exact .initializer h
    | _ => cases hform
  | nested d =>
    cases m' with
    | nested d' => exact .nested h
    | _ => cases hform
  | unknown span sort =>
    cases m' with
    | unknown =>
      cases hform
      exact .unknown
    | _ => cases hform

variable {n' : Node} {d d' : ClassDecl}

/-- A class keeps its symbol, and the parentheses are added in its members. -/
theorem cls (h : WithParens (.ofClassDecl d) n') :
    ∃ d', n' = .ofClassDecl d' ∧ d.id = d'.id ∧ d.span = d'.span ∧ d.sym = d'.sym ∧
      d.annotations = d'.annotations ∧
      List.Forall₂ (WithParens on ofMember) d.members d'.members := by
  cases h.form nofun with
  | classDecl hmembers => exact ⟨_, rfl, rfl, rfl, rfl, rfl, hmembers⟩

theorem methods (h : List.Forall₂ (WithParens on ofMember) d.members d'.members) :
    List.Forall₂ (WithParens on .method) d.methods d'.methods := by
  refine List.rel_filterMap (fun m m' (hm : (WithParens on ofMember) m m') => ?_) h
  cases hm.member with
  | method hd => exact .some hd
  | _ => exact .none

theorem isInitializer_eq {m m' : Member} (h : MemberWithParens m m') (t : SymbolTable) :
    m.isInitializer t = m'.isInitializer t := by
  cases h with
  | @field d d' hd =>
    obtain ⟨hsym, -, hinit⟩ := hd.varDecl
    have hsome : d.init.isSome = d'.init.isSome := by
      generalize d.init = x, d'.init = x', hinit = hx
      cases hx <;> rfl
    simp only [Member.isInitializer, Member.isStatic, hsym, hsome]
  | initializer hb =>
    cases hb.form nofun
    rfl
  | _ => rfl

theorem initializers (h : List.Forall₂ (WithParens on ofMember) d.members d'.members)
    (t : SymbolTable) :
    List.Forall₂ (WithParens on ofMember) (d.initializers t) (d'.initializers t) := by
  refine List.rel_filter (fun m m' (hm : (WithParens on ofMember) m m') => ?_) h
  exact Bool.eq_iff_iff.mp (isInitializer_eq hm.member t)

end WithParens

end Node

end EarlyEscape
