import EarlyEscape.Proofs.Interp.Handlers
import EarlyEscape.Proofs.Syntax.Form

/-!
# Parallel steps

A handler looks at the form of its node and hands the parts to the interpreter.  Two interpreters
that do the same with related parts therefore make the same step at nodes of the same form, each
with its own tree and its own catalog.

What is related is left to a relation on nodes.  An expression is seen in two ways, as something to
be interpreted and without its parentheses, so a relation may also hold between expressions of which
only the latter have the same form.

## Main definitions

* `SameResult` : two computations end with the same error or with related values.
* `MethodDecl.SameCode`, `ClassDecl.SameCode`, `Catalog.Entry.SameCode` : declarations whose code is
  related.
* `Interp.CodeRel` : a relation that holds of parts whenever it holds of nodes.
* `Interp.Parallel` : two interpreters that do the same with related pieces of programs.

## Main results

* `Interp.Parallel.stepExpr`, `Interp.Parallel.stepStmt`, `Interp.Parallel.loopPass` : they make the
  same steps.
-/

namespace EarlyEscape

open Function

/-! ### Expressions without parentheses -/

/-- The method that a name or selection without parentheses is resolved to. -/
def Expr.namedMethod? : Expr → Option MethodId
  | .ident _ _ sym => sym.bind Symbol.method?
  | .select _ _ _ sym => sym.bind Symbol.method?
  | _ => none

theorem Expr.method?_eq : ∀ e : Expr, e.method? = e.unparen.bind Expr.namedMethod?
  | .paren _ none => rfl
  | .paren _ (some e) => Expr.method?_eq e
  | .ident .. | .select .. | .typeName .. | .call .. | .new .. | .newArray .. | .assign ..
  | .assignOp .. | .unary .. | .binary .. | .conditional .. | .cast .. | .instanceOf .. | .index ..
  | .lambda .. | .memberRef .. | .switchExpr .. | .literal .. | .unknown .. => rfl

/-- The method that an expression is resolved to can be seen without its parentheses. -/
theorem methodOf?_eq (x : Option Expr) : methodOf? x = (unparen? x).bind Expr.namedMethod? := by
  cases x with
  | none => rfl
  | some e => exact e.method?_eq

/-! ### Related results -/

/-- Both computations end with the same error, or with related values. -/
inductive SameResult {ε α : Type} (R : α → α → Prop) : Except ε α → Except ε α → Prop
  | error {e : ε} : SameResult R (.error e) (.error e)
  | ok {a a' : α} (h : R a a') : SameResult R (.ok a) (.ok a')

/-! ### Related code -/

section SameCode

variable (t : SymbolTable) (R : Node → Node → Prop)

/-- The methods differ in their code at most, and the code is related. -/
structure MethodDecl.SameCode (d d' : MethodDecl) : Prop where
  id : d.id = d'.id
  sym : d.sym = d'.sym
  params : d.params.map (·.sym) = d'.params.map (·.sym)
  body : Option.Rel (R on Node.ofBlock) d.body d'.body

/-- The classes differ in their code at most, and the code is related. -/
structure ClassDecl.SameCode (d d' : ClassDecl) : Prop where
  id : d.id = d'.id
  span : d.span = d'.span
  sym : d.sym = d'.sym
  initializers : List.Forall₂ (R on Node.ofMember) (d.initializers t) (d'.initializers t)
  methods : List.Forall₂ (MethodDecl.SameCode R) d.methods d'.methods

/-- The entries differ in the code of their classes and methods at most, and the code is related. -/
structure Catalog.Entry.SameCode (e e' : Entry) : Prop where
  cls : e.cls.SameCode t R e'.cls
  decl : e.decl.SameCode R e'.decl
  analyzable : e.analyzable = e'.analyzable
  invokable : e.invokable = e'.invokable

end SameCode

namespace Interp

/-- Nodes that are related have the same form and related parts.  Of expressions this is said
without their parentheses, and of classes only of the code that may run. -/
structure CodeRel (t : SymbolTable) (R : Node → Node → Prop) : Prop where
  expr : ∀ {e n'}, R (.expr e) n' → ∃ e', n' = .expr e' ∧ e.span = e'.span ∧
    Option.Rel (Node.SameForm R on .expr) e.unparen e'.unparen
  cls : ∀ {d n'}, R (.ofClassDecl d) n' → ∃ d', n' = .ofClassDecl d' ∧ d.SameCode t R d'
  form : ∀ {n n'}, R n n' → (∀ e, n ≠ .expr e) → (∀ d, n ≠ .ofClassDecl d) → Node.SameForm R n n'

/-- The two pieces of programs are of one sort and their nodes are related. -/
inductive Task.Related (R : Node → Node → Prop) : Task → Task → Prop
  | expr {e e' : Expr} (h : R (.expr e) (.expr e')) : Related R (.expr e) (.expr e')
  | drop {e e' : Expr} (h : R (.expr e) (.expr e')) : Related R (.drop e) (.drop e')
  | stmt {s s' : Stmt} (h : R (.stmt s) (.stmt s')) : Related R (.stmt s) (.stmt s')
  | loop {s s' : Stmt} (h : R (.stmt s) (.stmt s')) : Related R (.loop s) (.loop s')

/-- The interpreter `w` with the surroundings `env` and the interpreter `w'` with another catalog
do the same with related pieces, and calls are resolved to related code. -/
structure Parallel (R : Node → Node → Prop) (env : Env) (cat : Catalog) (w w' : Walk) : Prop where
  code : CodeRel env.table R
  resolve : ∀ m receiver, SameResult (Option.Rel (Catalog.Entry.SameCode env.table R))
    (resolve? env m receiver) (resolve? { env with catalog := cat } m receiver)
  nonPublic : ∀ c, env.catalog.isNonPublic c = cat.isNonPublic c
  suppressed : ∀ s, env.catalog.isSuppressed s = cat.isSuppressed s
  walk : ∀ {t t'}, Task.Related R t t' → w t = w' t'

/-! ### What handlers read off related nodes -/

namespace CodeRel

variable {t : SymbolTable} {R : Node → Node → Prop}

theorem stmt (h : CodeRel t R) {s : Stmt} {n' : Node} (hs : R (.stmt s) n') :
    (∃ d d', s = .classDecl d ∧ n' = .ofClassDecl d' ∧ d.SameCode t R d') ∨
      Node.SameForm R (.stmt s) n' := by
  by_cases hclass : ∃ d, s = .classDecl d
  · obtain ⟨d, rfl⟩ := hclass
    obtain ⟨d', rfl, hd⟩ := h.cls hs
    exact .inl ⟨d, d', rfl, rfl, hd⟩
  · exact .inr (h.form hs nofun fun d hd => hclass ⟨d, Node.stmt.inj hd⟩)

theorem block (h : CodeRel t R) {b b' : Block} (hb : R (.ofBlock b) (.ofBlock b')) :
    List.Forall₂ (Option.Rel (R on Node.stmt)) b.stmts b'.stmts := by
  cases h.form hb nofun nofun with
  | block hstmts => exact hstmts

theorem varDecl (h : CodeRel t R) {d d' : VarDecl} (hd : R (.ofVarDecl d) (.ofVarDecl d')) :
    d.sym = d'.sym ∧ Option.Rel (R on Node.expr) d.init d'.init := by
  cases h.form hd nofun nofun with
  | varDecl hinit => exact ⟨rfl, hinit⟩

variable {x x' : Option Expr}

theorem unparen? (h : CodeRel t R) (hx : Option.Rel (R on Node.expr) x x') :
    Option.Rel (Node.SameForm R on .expr) (unparen? x) (unparen? x') := by
  cases hx with
  | none => exact .none
  | some hx =>
    obtain ⟨_, ⟨⟩, -, hform⟩ := h.expr hx
    exact hform

theorem methodOf? (h : CodeRel t R) (hx : Option.Rel (R on Node.expr) x x') :
    methodOf? x = methodOf? x' := by
  rw [methodOf?_eq, methodOf?_eq]
  generalize EarlyEscape.unparen? x = y, EarlyEscape.unparen? x' = y', h.unparen? hx = hy
  cases hy with
  | none => rfl
  | some hform => cases hform <;> rfl

theorem localVar? (h : CodeRel t R) (hx : Option.Rel (R on Node.expr) x x') (env : Env) :
    localVar? env x = localVar? env x' := by
  unfold Interp.localVar?
  generalize EarlyEscape.unparen? x = y, EarlyEscape.unparen? x' = y', h.unparen? hx = hy
  cases hy with
  | none => rfl
  | some hform => cases hform <;> rfl

theorem qualifier? (h : CodeRel t R) (hx : Option.Rel (R on Node.expr) x x') (name : String) :
    qualifier? x name = qualifier? x' name := by
  unfold Interp.qualifier?
  generalize EarlyEscape.unparen? x = y, EarlyEscape.unparen? x' = y', h.unparen? hx = hy
  cases hy with
  | none => rfl
  | some hform => cases hform <;> rfl

theorem pos (h : CodeRel t R) (hx : Option.Rel (R on Node.expr) x x') :
    x.map Expr.pos = x'.map Expr.pos := by
  cases hx with
  | none => rfl
  | some hx =>
    obtain ⟨_, ⟨⟩, hspan, -⟩ := h.expr hx
    simp only [Option.map_some, Expr.pos, hspan]

/-- Two expressions make calls at the same place if both create an instance or neither does. -/
theorem site (h : CodeRel t R) (hx : Option.Rel (R on Node.expr) x x')
    (hnew : x.any Expr.isNew = x'.any Expr.isNew) : Site.ofExpr? x = Site.ofExpr? x' := by
  have hcreation (y : Option Expr) : (Site.ofExpr? y).isCreation = y.any Expr.isNew := by
    rcases y with _ | (_ | _) <;> rfl
  have hpos : (Site.ofExpr? x).pos = (Site.ofExpr? x').pos := h.pos hx
  have hsame : (Site.ofExpr? x).isCreation = (Site.ofExpr? x').isCreation := by
    rw [hcreation, hcreation, hnew]
  calc Site.ofExpr? x = ⟨(Site.ofExpr? x).pos, (Site.ofExpr? x).isCreation⟩ := rfl
    _ = Site.ofExpr? x' := by rw [hpos, hsame]

/-- Related statements are both calls of another constructor or neither is. -/
theorem isThisCall (h : CodeRel t R) {s s' : Option Stmt}
    (hs : Option.Rel (R on Node.stmt) s s') : isThisCall s = isThisCall s' := by
  have hcalls (span : Span) (x : Option Expr) :
      Interp.isThisCall (some (.exprStmt span x)) = x.any Expr.callsThis := by
    rcases x with _ | (_ | _) <;> rfl
  cases hs with
  | none => rfl
  | some hs =>
    rcases h.stmt hs with ⟨d, d', rfl, ⟨⟩, -⟩ | hform
    · rfl
    · cases hform with
      | exprStmt _ hthis => rw [hcalls, hcalls, hthis]
      | _ => rfl

end CodeRel

/-! ### Parts that may be absent -/

theorem forM_eq_of_forall₂ {α : Type} {P : α → α → Prop} {f g : α → Interp Unit} {l l' : List α}
    (h : List.Forall₂ P l l') (hfg : ∀ a b, P a b → f a = g b) : l.forM f = l'.forM g := by
  induction h with
  | nil => rfl
  | @cons a b l l' hab _ ih =>
    change (f a >>= fun _ => l.forM f) = (g b >>= fun _ => l'.forM g)
    rw [hfg a b hab, ih]

namespace Parallel

variable {R : Node → Node → Prop} {env : Env} {cat : Catalog} {w w' : Walk}

section Parts

variable {x x' : Option Expr} {s s' : Option Stmt} {b b' : Option Block}

theorem eval (h : Parallel R env cat w w') (hx : Option.Rel (R on Node.expr) x x') :
    eval w x = eval w' x' := by
  cases hx with
  | none => rfl
  | some hx => exact h.walk (.expr hx)

theorem value (h : Parallel R env cat w w') (hx : Option.Rel (R on Node.expr) x x') :
    value env w x = value { env with catalog := cat } w' x' := by
  simp only [Interp.value, h.eval hx]
  rfl

theorem evalDrop (h : Parallel R env cat w w') (hx : Option.Rel (R on Node.expr) x x') :
    evalDrop w x = evalDrop w' x' := by
  cases hx with
  | none => rfl
  | some hx => exact h.walk (.drop hx)

theorem evalDrops (h : Parallel R env cat w w') {xs xs' : List (Option Expr)}
    (hxs : List.Forall₂ (Option.Rel (R on Node.expr)) xs xs') :
    xs.forM (Interp.evalDrop w) = xs'.forM (Interp.evalDrop w') :=
  forM_eq_of_forall₂ hxs fun _ _ hx => h.evalDrop hx

theorem runStmt (h : Parallel R env cat w w') (hs : Option.Rel (R on Node.stmt) s s') :
    runStmt w s = runStmt w' s' := by
  cases hs with
  | none => rfl
  | some hs => exact h.walk (.stmt hs)

theorem runStmts (h : Parallel R env cat w w') {ss ss' : List (Option Stmt)}
    (hss : List.Forall₂ (Option.Rel (R on Node.stmt)) ss ss') :
    ss.forM (Interp.runStmt w) = ss'.forM (Interp.runStmt w') :=
  forM_eq_of_forall₂ hss fun _ _ hs => h.runStmt hs

theorem runBlock (h : Parallel R env cat w w') (hb : Option.Rel (R on Node.ofBlock) b b') :
    runBlock w b = runBlock w' b' := by
  cases hb with
  | none => rfl
  | some hb => simp only [Interp.runBlock, h.runStmts (h.code.block hb)]

theorem runMember (h : Parallel R env cat w w') {m m' : Member}
    (hm : R (.ofMember m) (.ofMember m')) : runMember w m = runMember w' m' := by
  cases m with
  | field d =>
    have hform := h.code.form hm nofun nofun
    cases m' with
    | field d' => exact h.walk (.stmt hm)
    | _ => cases hform
  | initializer b =>
    have hform := h.code.form hm nofun nofun
    cases m' with
    | initializer b' => exact h.walk (.stmt hm)
    | _ => cases hform
  | nested d =>
    obtain ⟨d', hd', -⟩ := h.code.cls hm
    cases m' with
    | nested d' => rfl
    | _ => cases hd'
  | method d | unknown span sort =>
    have hform := h.code.form hm nofun nofun
    cases m' with
    | field _ | initializer _ => cases hform
    | _ => rfl

theorem runInitializers (h : Parallel R env cat w w') {d d' : ClassDecl}
    (hd : d.SameCode env.table R d') :
    runInitializers env w d = runInitializers { env with catalog := cat } w' d' :=
  forM_eq_of_forall₂ hd.initializers fun _ _ hm => h.runMember hm

end Parts

/-! ### Calls -/

section Calls

variable {args args' : List (Option Expr)}

theorem bindArgs (h : Parallel R env cat w w')
    (hargs : List.Forall₂ (Option.Rel (R on Node.expr)) args args') {params params' : List VarDecl}
    (hparams : params.map (·.sym) = params'.map (·.sym)) (seed : RefSet) :
    bindArgs env w args params seed =
      bindArgs { env with catalog := cat } w' args' params' seed := by
  induction hargs generalizing params params' seed with
  | nil => cases params <;> cases params' <;> rfl
  | cons ha _ ih =>
    cases params with
    | nil =>
      cases params' with
      | nil => simp only [Interp.bindArgs, h.evalDrop ha, ih rfl]
      | cons => cases hparams
    | cons p params =>
      cases params' with
      | nil => cases hparams
      | cons p' params' =>
        obtain ⟨hp, hparams⟩ := List.cons.inj hparams
        cases hsym : p.sym with
        | none =>
          have hsym' : p'.sym = none := hp.symm.trans hsym
          simp only [Interp.bindArgs, hsym, hsym', h.evalDrop ha, ih hparams]
        | some v =>
          have hsym' : p'.sym = some v := hp.symm.trans hsym
          simp only [Interp.bindArgs, hsym, hsym', h.value ha, ih hparams]

theorem runMethod (h : Parallel R env cat w w') {e e' : Catalog.Entry}
    (he : e.SameCode env.table R e') {b b' : Block} (hb : R (.ofBlock b) (.ofBlock b')) :
    runMethod env w e b = runMethod { env with catalog := cat } w' e' b' := by
  have hctor : e.decl.isConstructor env.table = e'.decl.isConstructor env.table := by
    simp only [MethodDecl.isConstructor, he.decl.sym]
  have hfirst : Option.Rel (R on Node.stmt) b.stmts.head?.join b'.stmts.head?.join := by
    generalize b.stmts = ss, b'.stmts = ss', h.code.block hb = hss
    cases hss with
    | nil => exact .none
    | cons hs _ =>
      cases hs with
      | none => exact .none
      | some hs => exact .some hs
  simp only [Interp.runMethod, hctor, h.code.isThisCall hfirst, h.runInitializers he.cls,
    h.runBlock (.some hb)]
  rfl

theorem invokeKnown (h : Parallel R env cat w w')
    (hargs : List.Forall₂ (Option.Rel (R on Node.expr)) args args') {e e' : Catalog.Entry}
    (he : e.SameCode env.table R e') {b b' : Block} (hb : R (.ofBlock b) (.ofBlock b'))
    (site : Site) (receiver : List Ref) :
    invokeKnown env w site args receiver e b =
      invokeKnown { env with catalog := cat } w' site args' receiver e' b' := by
  simp only [Interp.invokeKnown, h.bindArgs hargs he.decl.params, h.runMethod he hb, he.decl.id,
    he.cls.sym]
  rfl

theorem triggersLeak (h : Parallel R env cat w w') :
    triggersLeak env = triggersLeak { env with catalog := cat } := by
  funext r
  simp only [Interp.triggersLeak, h.nonPublic]

theorem invokeUnknown (h : Parallel R env cat w w')
    (hargs : List.Forall₂ (Option.Rel (R on Node.expr)) args args') (site : Site)
    (receiver : List Ref) :
    invokeUnknown env w site args receiver =
      invokeUnknown { env with catalog := cat } w' site args' receiver := by
  have hpass : args.forM (passUnknown env w) =
      args'.forM (passUnknown { env with catalog := cat } w') :=
    forM_eq_of_forall₂ hargs fun a a' ha => by
      simp only [passUnknown, h.value ha, h.triggersLeak, h.code.pos ha]
  simp only [Interp.invokeUnknown, hpass, h.triggersLeak]

theorem isExempt (h : Parallel R env cat w w') :
    isExempt env = isExempt { env with catalog := cat } := by
  funext m
  simp only [Interp.isExempt, h.suppressed]

theorem invoke (h : Parallel R env cat w w')
    (hargs : List.Forall₂ (Option.Rel (R on Node.expr)) args args') (site : Site)
    (m : Option MethodId) (receiver : List Ref) :
    invoke env w site m args receiver =
      invoke { env with catalog := cat } w' site m args' receiver := by
  have hunknown := h.invokeUnknown hargs site receiver
  simp only [Interp.invoke, h.isExempt]
  split
  · rfl
  · generalize resolve? env m receiver = o, resolve? { env with catalog := cat } m receiver = o',
      h.resolve m receiver = ho
    cases ho with
    | error => rfl
    | ok ho =>
      cases ho with
      | none => exact hunknown
      | @some e e' he =>
        simp only [he.invokable]
        generalize e.decl.body = b, e'.decl.body = b', he.decl.body = hb
        cases hb with
        | none => cases e'.invokable <;> exact hunknown
        | some hb =>
          cases e'.invokable with
          | false => exact hunknown
          | true => exact h.invokeKnown hargs he hb site receiver

theorem runLater (h : Parallel R env cat w w') {d d' : MethodDecl} (hd : d.SameCode R d')
    (site : Site) (cls : Option ClassId) (seed : RefSet) :
    runLater env w site cls seed d = runLater { env with catalog := cat } w' site cls seed d' := by
  have hctor : d.isConstructor env.table = d'.isConstructor env.table := by
    simp only [MethodDecl.isConstructor, hd.sym]
  have hstatic : (Member.method d).isStatic env.table = (Member.method d').isStatic env.table := by
    simp only [Member.isStatic, hd.sym]
  simp only [Interp.runLater]
  generalize d.body = b, d'.body = b', hd.body = hb
  cases hb with
  | none => rfl
  | some hb =>
    simp only [hctor, hstatic, hd.id, h.runBlock (.some hb)]
    rfl

theorem anonymous (h : Parallel R env cat w w')
    (hargs : List.Forall₂ (Option.Rel (R on Node.expr)) args args') {d d' : ClassDecl}
    (hd : d.SameCode env.table R d') (site : Site) (cls : Option ClassId) (ctor : Option MethodId)
    (receiver : List Ref) :
    anonymous env w site cls ctor args d receiver =
      anonymous { env with catalog := cat } w' site cls ctor args' d' receiver := by
  have hlater (cls : Option ClassId) (seed : RefSet) :
      d.methods.forM (Interp.runLater env w site cls seed) =
        d'.methods.forM (Interp.runLater { env with catalog := cat } w' site cls seed) :=
    forM_eq_of_forall₂ hd.methods fun _ _ hm => h.runLater hm site cls seed
  simp only [Interp.anonymous, h.invoke hargs, h.runInitializers hd, hlater, hd.sym, hd.id]
  rfl

theorem create (h : Parallel R env cat w w') {outer outer' : Option Expr}
    (houter : Option.Rel (R on Node.expr) outer outer')
    (hargs : List.Forall₂ (Option.Rel (R on Node.expr)) args args') {body body' : Option ClassDecl}
    (hbody : Option.Rel (R on Node.ofClassDecl) body body') (site : Site) (cls : Option ClassId)
    (ctor : Option MethodId) :
    create env w site outer cls ctor args body =
      create { env with catalog := cat } w' site outer' cls ctor args' body' := by
  have hreceivers : newReceivers env w outer cls =
      newReceivers { env with catalog := cat } w' outer' cls := by
    cases houter with
    | none => rfl
    | some houter => simp only [newReceivers, h.value (.some houter)]
  have hat (receiver : List Ref) : createAt env w site cls ctor args body receiver =
      createAt { env with catalog := cat } w' site cls ctor args' body' receiver := by
    cases hbody with
    | none => exact h.invoke hargs site ctor receiver
    | some hbody =>
      obtain ⟨_, ⟨⟩, hd⟩ := h.code.cls hbody
      exact h.anonymous hargs hd site cls ctor receiver
  rw [create_eq, create_eq, hreceivers]
  exact congrArg _ (funext hat)

theorem call (h : Parallel R env cat w w') {callee callee' : Option Expr}
    (hcallee : Option.Rel (R on Node.expr) callee callee') (hname : nameOf callee = nameOf callee')
    (hargs : List.Forall₂ (Option.Rel (R on Node.expr)) args args') (site : Site) :
    call env w site callee args = call { env with catalog := cat } w' site callee' args' := by
  simp only [Interp.call, isSuperCall, hname, h.code.methodOf? hcallee, h.evalDrops hargs,
    h.eval hcallee, h.invoke hargs]
  rfl

end Calls

/-! ### Functions and switches -/

theorem lambda (h : Parallel R env cat w w') {body body' : Option Node}
    (hbody : Option.Rel R body body') (type : Option ClassId) :
    lambda env w body type = lambda { env with catalog := cat } w' body' type := by
  have hrun : runLambdaBody env w body = runLambdaBody { env with catalog := cat } w' body' := by
    cases hbody with
    | none => rfl
    | @some n n' hn =>
      cases n with
      | expr e =>
        obtain ⟨e', rfl, -⟩ := h.code.expr hn
        simp only [runLambdaBody, h.walk (.expr hn)]
        rfl
      | stmt s =>
        rcases h.code.stmt hn with ⟨d, d', rfl, rfl, -⟩ | hform
        · rfl
        · cases hform with
          | block => exact h.runBlock (.some hn)
          | _ => rfl
      | _ =>
        cases h.code.form hn nofun nofun
        rfl
  simp only [Interp.lambda, hrun]
  rfl

theorem memberRef (h : Parallel R env cat w w') {x x' : Option Expr}
    (hx : Option.Rel (R on Node.expr) x x') (site : Site) (sym : Option MethodId)
    (kind : MemberRefKind) (type : Option ClassId) :
    memberRef env w site x sym kind type =
      memberRef { env with catalog := cat } w' site x' sym kind type := by
  have hreceivers : capturedReceivers env w x sym kind =
      capturedReceivers { env with catalog := cat } w' x' sym kind := by
    cases kind <;> simp only [capturedReceivers, h.value hx, h.evalDrop hx] <;> rfl
  simp only [Interp.memberRef, hreceivers, h.invoke .nil]
  rfl

theorem bind (h : Parallel R env cat w w') {d d' : VarDecl} (hd : R (.ofVarDecl d) (.ofVarDecl d'))
    (rs : List Ref) : bind env rs d = bind { env with catalog := cat } rs d' := by
  simp only [Interp.bind, (h.code.varDecl hd).1]

theorem runCase (h : Parallel R env cat w w') {c c' : Case}
    (hc : R (.switchCase c) (.switchCase c')) (selector : List Ref) :
    runCase env w selector c = runCase { env with catalog := cat } w' selector c' := by
  cases h.code.form hc nofun nofun with
  | @switchCase _ _ _ bindings bindings' _ _ _ _ hlabels hbindings hguard hbody =>
    have hbind : bindings.forM (Interp.bind env selector) =
        bindings'.forM (Interp.bind { env with catalog := cat } selector) :=
      forM_eq_of_forall₂ hbindings fun _ _ hd => h.bind hd selector
    simp only [Interp.runCase, h.evalDrops hlabels, h.evalDrop hguard, h.runStmts hbody, hbind]

theorem runYieldingCases (h : Parallel R env cat w w') {cases cases' : List Case}
    (hcases : List.Forall₂ (R on Node.switchCase) cases cases') (selector : List Ref) :
    runYieldingCases env w selector cases =
      runYieldingCases { env with catalog := cat } w' selector cases' := by
  induction hcases with
  | nil => rfl
  | cons hc _ ih =>
    simp only [Interp.runYieldingCases, h.runCase hc, ih]
    rfl

theorem runElements (h : Parallel R env cat w w') {xs xs' : List (Option Expr)}
    (hxs : List.Forall₂ (Option.Rel (R on Node.expr)) xs xs') (type : Option ClassId) :
    runElements env w type xs = runElements { env with catalog := cat } w' type xs' := by
  induction hxs with
  | nil => rfl
  | cons hx _ ih => simp only [Interp.runElements, h.value hx, ih]

/-! ### All expressions and statements -/

theorem stepExpr (h : Parallel R env cat w w') {e e' : Expr}
    (hform : Node.SameForm R (.expr e) (.expr e')) :
    stepExpr env w e = stepExpr { env with catalog := cat } w' e' := by
  cases hform with
  | ident | literal | typeName | unknownExpr => rfl
  | paren hx => exact h.eval hx
  | unary hx => exact h.evalDrop hx
  | new houter hargs hbody => exact h.create houter hargs hbody _ _ _
  | call hcallee hname hargs => exact h.call hcallee hname hargs _
  | assign hlhs hrhs =>
    simp only [Interp.stepExpr, h.evalDrop hlhs, h.eval hrhs, h.evalDrop hrhs,
      h.code.localVar? hlhs]
    rfl
  | assignOp hlhs hrhs => simp only [Interp.stepExpr, h.evalDrop hlhs, h.evalDrop hrhs]
  | binary hx hy => simp only [Interp.stepExpr, h.evalDrop hx, h.evalDrop hy]
  | cast hx =>
    simp only [Interp.stepExpr, h.eval hx, h.evalDrop hx]
    rfl
  | conditional hcond hyes hno =>
    simp only [Interp.stepExpr, h.evalDrop hcond, h.value hyes, h.value hno]
  | index hx hi => simp only [Interp.stepExpr, h.value hx, h.evalDrop hi]
  | instanceOf hx hbinding =>
    simp only [Interp.stepExpr, h.value hx]
    cases hbinding with
    | none => rfl
    | some hd => simp only [h.bind hd]
  | lambda _ hbody => exact h.lambda hbody _
  | memberRef hx => exact h.memberRef hx _ _ _ _
  | newArray hdims helems =>
    simp only [Interp.stepExpr, h.evalDrops hdims, h.runElements helems]
  | select hx =>
    simp only [Interp.stepExpr, Interp.select, h.code.qualifier? hx, h.value hx]
    rfl
  | switchExpr hselector hcases =>
    simp only [Interp.stepExpr, switchValue, h.value hselector, h.runYieldingCases hcases]
    rfl

theorem elements (h : Parallel R env cat w w') (site : Site) (rs : List Ref) :
    elements env w site rs = elements { env with catalog := cat } w' site rs := by
  simp only [Interp.elements, h.invoke .nil]
  rfl

theorem loopPass (h : Parallel R env cat w w') {s s' : Stmt} (hs : R (.stmt s) (.stmt s')) :
    loopPass env w s = loopPass { env with catalog := cat } w' s' := by
  rcases h.code.stmt hs with ⟨d, d', rfl, ⟨⟩, -⟩ | hform
  · rfl
  · cases hform with
    | whileLoop hcond hbody =>
      simp only [Interp.loopPass, whilePass, h.evalDrop hcond, h.runStmt hbody]
    | doLoop hbody hcond =>
      simp only [Interp.loopPass, doPass, h.evalDrop hcond, h.runStmt hbody]
    | forLoop _ hcond hpost hbody =>
      simp only [Interp.loopPass, forPass, h.evalDrop hcond, h.runStmts hpost, h.runStmt hbody]
    | forEach hvar hx hnew hbody =>
      simp only [Interp.loopPass, forEachPass, h.value hx, h.elements, h.code.site hx hnew,
        h.runStmt hbody]
      cases hvar with
      | none => rfl
      | some hd => simp only [Option.bind_some, (h.code.varDecl hd).1]
    | _ => rfl

theorem stmtEffect (h : Parallel R env cat w w') {s s' : Stmt} (hs : R (.stmt s) (.stmt s')) :
    stmtEffect env w s = stmtEffect { env with catalog := cat } w' s' := by
  rcases h.code.stmt hs with ⟨d, d', rfl, ⟨⟩, -⟩ | hform
  · rfl
  · cases hform with
    | branch | empty | classDecl | unknownStmt => rfl
    | assertStmt hcond hdetail =>
      simp only [Interp.stmtEffect, h.evalDrop hcond, h.evalDrop hdetail]
    | block => exact h.runBlock (.some hs)
    | doLoop | whileLoop | forEach => exact h.walk (.loop hs)
    | exprStmt hx => exact h.evalDrop hx
    | forLoop hinit =>
      simp only [Interp.stmtEffect, h.runStmts hinit, h.walk (.loop hs)]
    | ifElse hcond hyes hno =>
      simp only [Interp.stmtEffect, h.evalDrop hcond, h.runStmt hyes, h.runStmt hno]
    | labeled hbody => exact h.runStmt hbody
    | returnStmt hx =>
      cases hx with
      | none => rfl
      | some hx =>
        simp only [Interp.stmtEffect, h.walk (.expr hx)]
        rfl
    | switch hselector hcases =>
      have hrun (rs : List Ref) := forM_eq_of_forall₂ hcases fun _ _ hc => h.runCase hc rs
      simp only [Interp.stmtEffect, h.value hselector, hrun]
    | synchronized hlock hbody =>
      simp only [Interp.stmtEffect, h.evalDrop hlock, h.runBlock hbody]
    | throwStmt hx => simp only [Interp.stmtEffect, h.eval hx]
    | @tryCatch _ _ _ _ _ catches catches' _ _ hresources hbody hcatches hfinalizer =>
      have hcatches : (catches.forM fun c => Interp.runBlock w c.body) =
          catches'.forM fun c => Interp.runBlock w' c.body :=
        forM_eq_of_forall₂ hcatches fun c c' hc => by
          cases h.code.form hc nofun nofun with
          | catchClause _ hbody => exact h.runBlock hbody
      simp only [Interp.stmtEffect, h.runStmts hresources, h.runBlock hbody, hcatches,
        h.runBlock hfinalizer]
    | varDecl hinit =>
      cases hinit with
      | none => rfl
      | some hx =>
        simp only [Interp.stmtEffect, declare, h.walk (.expr hx), h.walk (.drop hx)]
        rfl
    | yieldStmt hx =>
      simp only [Interp.stmtEffect, h.eval hx]
      rfl

theorem stepStmt (h : Parallel R env cat w w') {s s' : Stmt} (hs : R (.stmt s) (.stmt s')) :
    stepStmt env w s = stepStmt { env with catalog := cat } w' s' := by
  have hsame : (Node.stmt s).span = (Node.stmt s').span ∧
      (Node.stmt s).sortText = (Node.stmt s').sortText := by
    rcases h.code.stmt hs with ⟨d, d', rfl, ⟨⟩, hd⟩ | hform
    · exact ⟨hd.span, rfl⟩
    · exact ⟨hform.span_eq, hform.sortText_eq⟩
  have hpos : s.pos = s'.pos := congrArg Span.pos hsame.1
  simp only [Interp.stepStmt, h.stmtEffect hs, checkLeftovers, hpos, hsame.2]
  rfl

end Parallel

end Interp

end EarlyEscape
