import EarlyEscape.Proofs.Interp.Growth

/-!
# Plain code

Most code only looks for references and never for their absence.  The exceptions are functions,
whose values are compared with what was returned before, switches with a value, which take what was
yielded, loops over the elements of several values, which ask the first of them only, and calls that
are resolved by their receivers or that are not entered because they are running already.  Code
without these is plain: the more references it starts from, the more it finds.

## Main definitions

* `Node.IsPlain` : a node of a sort that is none of the exceptions.
* `Interp.HandsOver`, `Interp.PlainCall` : methods whose calls do not depend on their receivers.
* `Interp.PlainClass` : classes without a name whose code has smaller ranks.
* `Interp.PlainCode` : code of such nodes, calls and classes, by the ranks of its declarations.

## Main results

* `Interp.grows_invoke` : calls lead from larger states to larger states.
* `Interp.exec_grows` : so does all plain code.
-/

namespace EarlyEscape

/-- The interpretation of the node looks for references and never for their absence. -/
def Node.IsPlain : Node → Prop
  | .expr (.lambda ..) => False
  | .expr (.switchExpr ..) => False
  | .stmt (.forEach ..) => False
  | _ => True

namespace Interp

attribute [local simp] Task.node Node.children Node.exprChildren Node.stmtChildren

/-- Every call of the method hands its receivers and its arguments to unknown code. -/
def HandsOver (env : Env) (m : Option MethodId) : Prop :=
  m.any (isExempt env) = false ∧ ∀ receiver e, resolve? env m receiver = .ok (some e) →
    e.invokable = false ∨ e.decl.body = none

/-- What a call of the method leads to does not depend on its receivers: nothing, unknown code, or
known code of a rank below `k`. -/
inductive PlainCall (env : Env) (rank : DeclId → Nat) (code : Nat → Node → Prop) (k : Nat)
    (m : Option MethodId) : Prop
  | exempt (h : m.any (isExempt env) = true)
  | unknown (h : HandsOver env m)
  | known (e : Catalog.Entry) (body : Block) (h : ∀ receiver, Known env m receiver e body)
      (hrank : rank e.decl.id < k) (hbody : code (rank e.decl.id) (.ofBlock body))
      (hinit : e.decl.isConstructor env.table = true → isThisCall body.stmts.head?.join = false →
        ∀ x ∈ e.cls.initializers env.table, code (rank e.decl.id) (.ofMember x))

/-- The code of a class without a name: its initializers and its methods have ranks below `k`. -/
structure PlainClass (env : Env) (rank : DeclId → Nat) (code : Nat → Node → Prop) (k : Nat)
    (d : ClassDecl) : Prop where
  rank_lt : rank d.id < k
  initializers : ∀ x ∈ d.initializers env.table, code (rank d.id) (.ofMember x)
  methods : ∀ md ∈ d.methods, ∀ body, md.body = some body →
    rank md.id < k ∧ code (rank md.id) (.ofBlock body)

/-- Code for every rank, with all that runs inside, is plain and runs only known code of smaller
ranks. -/
structure PlainCode (env : Env) (rank : DeclId → Nat) (code : Nat → Node → Prop) : Prop where
  child : ∀ k n c, code k n → n.RunsChild c → code k c
  plain : ∀ k n, code k n → n.IsPlain
  call : ∀ k span callee args, code k (.expr (.call span callee args)) →
    isSuperCall env callee = false → PlainCall env rank code k (methodOf? callee)
  memberRef : ∀ k span x name sym kind type,
    code k (.expr (.memberRef span x name sym kind type)) → PlainCall env rank code k sym
  new : ∀ k span outer cls ctor args body,
    code k (.expr (.new span outer cls ctor args body)) → PlainCall env rank code k ctor
  body : ∀ k span outer cls ctor args d,
    code k (.expr (.new span outer cls ctor args (some d))) → PlainClass env rank code k d

/-- The interpreter with the bounds `n` and `m` on the steps leads from larger states to larger
states at all nodes of the code. -/
def Walks (env : Env) (rank : DeclId → Nat) (code : Nat → Node → Prop) (n m : Nat) : Prop :=
  ∀ k t, code k t.node →
    Grows rank k .idle (exec env n t) (exec env m t) (fun _ _ => True) t.result

section Plain

variable {env : Env} {rank : DeclId → Nat} {code : Nat → Node → Prop} {k n m : Nat}

theorem PlainCode.runs (h : PlainCode env rank code) {c d : Node} (hc : code k c)
    (hd : c.Runs d) : code k d := by
  induction hd with
  | refl => exact hc
  | tail _ hchild ih => exact h.child k _ _ ih hchild

/-- Plain code takes nothing away. -/
theorem PlainCode.not_takes (h : PlainCode env rank code) {c : Node} (hc : code k c)
    (kind : Ref.Kind) : ¬c.Takes kind := by
  rintro ⟨-, span, selector, cases, hruns⟩
  exact h.plain k _ (h.runs hc hruns)

theorem Effects.covers_all {t : Task} : Effects.all.Covers t :=
  ⟨trivial, fun _ _ => trivial, fun _ _ => trivial, fun _ _ => trivial⟩

theorem Effects.coversExpr_all {e : Option Expr} : Effects.all.CoversExpr e :=
  fun _ _ _ _ => covers_all

/-! ### Parts -/

section Parts

variable (hwalk : Walks env rank code n m) {p : Phase}
include hwalk

theorem grows_eval {e : Option Expr} (h : ∀ x, e = some x → code k (.expr x)) :
    Grows rank k .idle (eval (exec env n) e) (eval (exec env m) e) (fun _ _ => True) .busy := by
  cases e with
  | none => exact Grows.ofBusy (.pure trivial)
  | some e => exact hwalk k (.expr e) (h e rfl)

theorem grows_value {e : Option Expr} (h : ∀ x, e = some x → code k (.expr x)) :
    Grows rank k .idle (value env (exec env n) e) (value env (exec env m) e)
      (fun rs rs' => rs ⊆ rs') .idle :=
  (grows_eval hwalk h).bind fun _ _ _ => grows_takeResult

theorem grows_evalDrop {e : Option Expr} (h : ∀ x, e = some x → code k (.expr x)) :
    Grows rank k .idle (evalDrop (exec env n) e) (evalDrop (exec env m) e) (fun _ _ => True)
      .idle := by
  cases e with
  | none => exact .pure trivial
  | some e => exact hwalk k (.drop e) (h e rfl)

theorem grows_evalDrops {es : List (Option Expr)}
    (h : ∀ e ∈ es, ∀ x, e = some x → code k (.expr x)) :
    Grows rank k .idle (es.forM (evalDrop (exec env n))) (es.forM (evalDrop (exec env m)))
      (fun _ _ => True) .idle :=
  .forM fun e he => grows_evalDrop hwalk (h e he)

theorem grows_runStmt {s : Option Stmt} (h : ∀ x, s = some x → code k (.stmt x)) :
    Grows rank k .idle (runStmt (exec env n) s) (runStmt (exec env m) s) (fun _ _ => True)
      .idle := by
  cases s with
  | none => exact .pure trivial
  | some s => exact hwalk k (.stmt s) (h s rfl)

theorem grows_runStmts {ss : List (Option Stmt)}
    (h : ∀ s ∈ ss, ∀ x, s = some x → code k (.stmt x)) :
    Grows rank k .idle (ss.forM (runStmt (exec env n))) (ss.forM (runStmt (exec env m)))
      (fun _ _ => True) .idle :=
  .forM fun s hs => grows_runStmt hwalk (h s hs)

theorem grows_runBlock (hcode : PlainCode env rank code) {b : Option Block}
    (h : ∀ x, b = some x → code k (.ofBlock x)) :
    Grows rank k p (runBlock (exec env n) b) (runBlock (exec env m) b) (fun _ _ => True) p := by
  cases b with
  | none => exact .pure trivial
  | some b =>
    refine .inScope (grows_runStmts hwalk fun s hs x hx => ?_)
    exact hcode.child k _ _ (h b rfl) ⟨rfl, by simpa using hx ▸ hs⟩

end Parts

/-! ### Calls -/

section Calls

variable (hcode : PlainCode env rank code) (hguard : env.guard = .running)
  (hwalk : Walks env rank code n m)

include hwalk in
/-- The arguments of a call give more references to start from. -/
theorem grows_bindArgs {args : List (Option Expr)}
    (h : ∀ a ∈ args, ∀ x, a = some x → code k (.expr x)) :
    ∀ (params : List VarDecl) (seed seed' : RefSet), (∀ r ∈ seed, r ∈ seed') →
      Grows rank k .idle (bindArgs env (exec env n) args params seed)
        (bindArgs env (exec env m) args params seed') (fun seed seed' => ∀ r ∈ seed, r ∈ seed')
        .idle := by
  induction args with
  | nil => exact fun _ _ _ hseed => .pure hseed
  | cons a args ih =>
    have ih := ih fun b hb => h b (List.mem_cons_of_mem a hb)
    have ha := h a List.mem_cons_self
    intro params seed seed' hseed
    cases params with
    | nil => exact .bind (grows_evalDrop hwalk ha) fun _ _ _ => ih [] seed seed' hseed
    | cons p params =>
      cases hp : p.sym with
      | none =>
        simp only [bindArgs, hp]
        exact .bind (grows_evalDrop hwalk ha) fun _ _ _ => ih params seed seed' hseed
      | some v =>
        simp only [bindArgs, hp]
        refine .bind (grows_value hwalk ha) fun rs rs' hrs => ih params _ _ fun r hr => ?_
        exact RefSet.mem_insertAll.mpr ((RefSet.mem_insertAll.mp hr).imp
          (fun hr => List.map_subset _ hrs hr) (hseed r))

include hwalk in
theorem grows_runInitializers {d : ClassDecl}
    (h : ∀ x ∈ d.initializers env.table, code k (.ofMember x)) :
    Grows rank k .idle (runInitializers env (exec env n) d) (runInitializers env (exec env m) d)
      (fun _ _ => True) .idle := by
  refine Grows.forM fun x hx => ?_
  have hmember := h x hx
  cases x with
  | field d => exact hwalk k (.stmt (.varDecl d)) hmember
  | initializer b => exact hwalk k (.stmt (.block b)) hmember
  | method d => exact .pure trivial
  | nested d => exact .pure trivial
  | unknown span sort => exact .pure trivial

include hcode hwalk in
theorem grows_runMethod {e : Catalog.Entry} {body : Block} (hbody : code k (.ofBlock body))
    (hinit : e.decl.isConstructor env.table = true → isThisCall body.stmts.head?.join = false →
      ∀ x ∈ e.cls.initializers env.table, code k (.ofMember x)) :
    Grows rank k .idle (runMethod env (exec env n) e body) (runMethod env (exec env m) e body)
      (fun _ _ => True) .idle := by
  have hend : Grows rank k .idle
      (do
        runBlock (exec env n) (some body)
        if e.decl.isConstructor env.table then
          let rs ← takeAll env .this
          add (rs.map (·.asReturned)))
      (do
        runBlock (exec env m) (some body)
        if e.decl.isConstructor env.table then
          let rs ← takeAll env .this
          add (rs.map (·.asReturned))) (fun _ _ => True) .idle := by
    refine .bind (grows_runBlock hwalk hcode ?_) fun _ _ _ => .ite (fun _ => ?_) fun _ =>
      .pure trivial
    · rintro _ ⟨⟩
      exact hbody
    · refine .bind (grows_takeAll (by decide)) fun rs rs' hrs =>
        grows_add (List.map_subset _ hrs) ?_
      intro r hr
      obtain ⟨x, -, rfl⟩ := List.mem_map.mp hr
      exact nofun
  refine .ite (c := (e.decl.isConstructor env.table && !isThisCall body.stmts.head?.join) = true)
    (fun hctor => .bind (grows_runInitializers hwalk ?_) fun _ _ _ => hend) fun _ => hend
  rw [Bool.and_eq_true, Bool.not_eq_true'] at hctor
  exact hinit hctor.1 hctor.2

include hcode hguard hwalk in
/-- Calls of known code. -/
theorem grows_invokeKnown {site site' : Site} {args : List (Option Expr)}
    (hargs : ∀ a ∈ args, ∀ x, a = some x → code k (.expr x)) {e : Catalog.Entry} {body : Block}
    (hrank : rank e.decl.id < k) (hbody : code (rank e.decl.id) (.ofBlock body))
    (hinit : e.decl.isConstructor env.table = true → isThisCall body.stmts.head?.join = false →
      ∀ x ∈ e.cls.initializers env.table, code (rank e.decl.id) (.ofMember x))
    {rs rs' : List Ref} (hrs : rs ⊆ rs') (hthis : ∀ r ∈ rs', r.kind = .this) :
    Grows rank k .idle (invokeKnown env (exec env n) site args rs e body)
      (invokeKnown env (exec env m) site' args rs' e body) (fun _ _ => True) .busy := by
  have hframe : ∀ u u', runMethod env (exec env m) e body u = .ok () u' → Frame .all u u' :=
    fun u u' hu => ((program_runMethod (w := World.all env.table env.catalog)).of_run hu).2.toAll
  have hargs' := grows_bindArgs hwalk hargs e.decl.params (.ofList rs) (.ofList rs')
    fun r hr => RefSet.mem_ofList.mpr (hrs (RefSet.mem_ofList.mp hr))
  have hseeds : Program (World.all env.table env.catalog) .all .idle
      (fun mode => bindArgs (World.env _ mode) mode.walk args e.decl.params (.ofList rs'))
      (fun seed => ∀ r ∈ seed, World.Tracks _ r ∧ IsSeed r) .idle :=
    program_bindArgs (World.all_closed env.table env.catalog) (fun _ _ => .inr rfl)
      (fun _ _ => Effects.coversExpr_all) _ _ (fun _ _ => trivial) fun r hr =>
        ⟨⟨trivial, trivial, fun _ _ => trivial⟩, .inl (hthis r (RefSet.mem_ofList.mp hr))⟩
  rw [invokeKnown_eq, invokeKnown_eq]
  exact (Grows.withValue hseeds hargs').bind fun seed seed' h =>
    (grows_enterSeed hguard h.1 (fun r hr => (h.2 r hr).2) hrank hframe
      (grows_runMethod hcode hwalk hbody hinit)).bind fun _ _ h => grows_push h

theorem any_triggersLeak_of_subset {rs rs' : List Ref} (h : rs ⊆ rs')
    (hleak : rs.any (triggersLeak env) = true) : rs'.any (triggersLeak env) = true := by
  obtain ⟨r, hr, hleak⟩ := List.any_eq_true.mp hleak
  exact List.any_eq_true.mpr ⟨r, h hr, hleak⟩

include hwalk in
theorem grows_invokeUnknown {site site' : Site} (hsite : site'.isCreation = site.isCreation)
    {args : List (Option Expr)} (hargs : ∀ a ∈ args, ∀ x, a = some x → code k (.expr x))
    {rs rs' : List Ref} (hrs : rs ⊆ rs') :
    Grows rank k .idle (invokeUnknown env (exec env n) site args rs)
      (invokeUnknown env (exec env m) site' args rs') (fun _ _ => True) .busy := by
  have hpass : Grows rank k .idle (args.forM (passUnknown env (exec env n)))
      (args.forM (passUnknown env (exec env m))) (fun _ _ => True) .idle :=
    .forM fun a ha => (grows_value hwalk (hargs a ha)).bind fun _ _ h =>
      grows_leakIf (any_triggersLeak_of_subset h) _ _
  refine grows_leakThen (any_triggersLeak_of_subset hrs) _ _ (hpass.bind fun _ _ _ => ?_)
  rw [hsite]
  exact .ite (fun _ => grows_push (List.filterMap_subset _ hrs))
    fun _ => Grows.ofBusy (.pure trivial)

/-- A call that is always handed to unknown code is so if it comes to its end. -/
theorem HandsOver.invoke {mth : Option MethodId} (h : HandsOver env mth) {walk : Walk} {site : Site}
    {args : List (Option Expr)} {rs : List Ref} {s s' : State}
    (hrun : invoke env walk site mth args rs s = .ok () s') :
    invokeUnknown env walk site args rs s = .ok () s' := by
  rcases invoke_eq_ok hrun with ⟨hexempt, -⟩ | ⟨-, hrun⟩ | ⟨e, body, hknown, -⟩
  · cases hexempt.symm.trans h.1
  · exact hrun
  · rcases h.2 rs e hknown.resolved with hnot | hnone
    · cases hnot.symm.trans hknown.invokable
    · cases hnone.symm.trans hknown.body

include hcode hguard hwalk in
/-- Calls lead from larger states to larger states. -/
theorem grows_invoke {site site' : Site} (hsite : site'.isCreation = site.isCreation)
    {mth : Option MethodId} (hm : PlainCall env rank code k mth) {args : List (Option Expr)}
    (hargs : ∀ a ∈ args, ∀ x, a = some x → code k (.expr x)) {rs rs' : List Ref} (hrs : rs ⊆ rs')
    (hthis : ∀ r ∈ rs', r.kind = .this) :
    Grows rank k .idle (invoke env (exec env n) site mth args rs)
      (invoke env (exec env m) site' mth args rs') (fun _ _ => True) .busy := by
  cases hm with
  | exempt h =>
    rw [invoke, invoke, if_pos h, if_pos h]
    exact Grows.ofBusy (.pure trivial)
  | unknown h =>
    intro s u hsu hin habove a b s' u' hs hu
    exact grows_invokeUnknown hwalk hsite hargs hrs s u hsu hin habove a b s' u' (h.invoke hs)
      (h.invoke hu)
  | known e body h hrank hbody hinit =>
    rw [invoke, invoke, if_neg (by simp [(h rs).exempt]), if_neg (by simp [(h rs).exempt]),
      (h rs).resolved, (h rs').resolved]
    simp only [(h rs).invokable, (h rs).body]
    exact grows_invokeKnown hcode hguard hwalk hargs hrank hbody hinit hrs hthis

/-! ### Classes without a name -/

theorem program_anyBlock {t : SymbolTable} {cat : Catalog} {body : Block} :
    Program (World.all t cat) .all .idle (fun m => runBlock m.walk (some body)) (fun _ => True)
      .idle :=
  program_runBlock fun _ _ _ _ _ _ => Effects.covers_all

theorem frame_runBlock {body : Block} {u u' : State}
    (hrun : runBlock (exec env n) (some body) u = .ok () u') : Frame .all u u' :=
  (program_anyBlock.of_run hrun).2

/-- The methods of an anonymous class are entered only with references to pass on. -/
theorem runLater_eq (env : Env) (walk : Walk) (site : Site) (cls : Option ClassId) (seed : RefSet)
    {d : MethodDecl} {body : Block} (hb : d.body = some body) :
    runLater env walk site cls seed d =
      if d.isConstructor env.table || (Member.method d).isStatic env.table then pure ()
      else discard (enterSeed env site.pos d.id cls seed (runBlock walk (some body))) := by
  simp only [runLater, hb, enterSeed]
  cases d.isConstructor env.table || (Member.method d).isStatic env.table <;>
    cases seed.isEmpty <;> rfl

section Anonymous

variable {site site' : Site} {cls : Option ClassId} {d : ClassDecl}

include hcode hguard hwalk

theorem grows_runLater {seed seed' : RefSet} (hseed : ∀ r ∈ seed, r ∈ seed')
    (hkind : ∀ r ∈ seed', IsSeed r) {md : MethodDecl} (h : ∀ body, md.body = some body →
      rank md.id < k ∧ code (rank md.id) (.ofBlock body)) {p : Phase} :
    Grows rank k p (runLater env (exec env n) site cls seed md)
      (runLater env (exec env m) site' cls seed' md) (fun _ _ => True) p := by
  cases hb : md.body with
  | none =>
    simp only [runLater, hb]
    exact .pure trivial
  | some body =>
    obtain ⟨hrank, hbody⟩ := h body hb
    rw [runLater_eq env _ _ _ _ hb, runLater_eq env _ _ _ _ hb]
    refine .ite (fun _ => .pure trivial) fun _ => (grows_enterSeed hguard hseed hkind hrank
      (fun _ _ => frame_runBlock) (grows_runBlock hwalk hcode ?_)).discard
    rintro _ ⟨⟩
    exact hbody

theorem grows_runMethodsLater (hd : PlainClass env rank code k d) {rs rs' : List Ref}
    (hrs : rs ⊆ rs') (hthis : ∀ r ∈ rs', r.kind = .this) :
    Grows rank k .idle (runMethodsLater env (exec env n) site cls d rs)
      (runMethodsLater env (exec env m) site' cls d rs') (fun _ _ => True) .busy := by
  have hprogram : Program (World.all env.table env.catalog) .all .idle
      (fun mode => find (World.env _ mode) .var fun _ => true) _ .idle :=
    program_find (.inr ⟨rfl, fun _ _ _ _ => trivial⟩)
  refine (Grows.withValue (n := m) hprogram (grows_find (.inr rfl))).bind
    fun captured captured' h =>
    (Grows.forM fun md hmd => grows_runLater hcode hguard hwalk (fun r hr => ?_) (fun r hr => ?_)
      (hd.methods md hmd)).bind fun _ _ _ => grows_push hrs
  · rw [RefSet.mem_insertAll, RefSet.mem_ofList] at hr ⊢
    exact hr.imp (fun hr => h.1 hr) fun hr => hrs hr
  · rw [RefSet.mem_insertAll, RefSet.mem_ofList] at hr
    exact hr.elim (fun hr => .inr (h.2 r hr).2) fun hr => .inl (hthis r hr)

/-- The creation of an instance of an anonymous class. -/
theorem grows_anonymous (hsite : site'.isCreation = site.isCreation) {ctor : Option MethodId}
    (hctor : PlainCall env rank code k ctor) {args : List (Option Expr)}
    (hargs : ∀ a ∈ args, ∀ x, a = some x → code k (.expr x)) (hd : PlainClass env rank code k d)
    {rs rs' : List Ref} (hrs : rs ⊆ rs') (hthis : ∀ r ∈ rs', r.kind = .this) :
    Grows rank k .idle (anonymous env (exec env n) site cls ctor args d rs)
      (anonymous env (exec env m) site' cls ctor args d rs') (fun _ _ => True) .busy := by
  have hsub : rs.map (·.withType (d.sym.or cls)) ⊆ rs'.map (·.withType (d.sym.or cls)) :=
    List.map_subset _ hrs
  have hkind : ∀ r ∈ rs'.map (·.withType (d.sym.or cls)), r.kind = .this := by
    intro r hr
    obtain ⟨x, hx, rfl⟩ := List.mem_map.mp hr
    exact hthis x hx
  have hframe : ∀ u u', runInitializers env (exec env m) d u = .ok () u' → Frame .all u u' :=
    fun u u' hu => ((program_runInitializers (w := World.all env.table env.catalog)
      fun _ _ => trivial).of_run hu).2.toAll
  have hseed : ∀ r ∈ RefSet.ofList (rs.map (·.withType (d.sym.or cls))),
      r ∈ RefSet.ofList (rs'.map (·.withType (d.sym.or cls))) := fun r hr =>
    RefSet.mem_ofList.mpr (hsub (RefSet.mem_ofList.mp hr))
  rw [anonymous_eq, anonymous_eq]
  exact ((grows_invoke hcode hguard hwalk hsite hctor hargs hsub hkind).bind fun _ _ _ =>
    grows_dropResult).bind fun _ _ _ =>
    (grows_enterSeed hguard hseed (fun r hr => .inl (hkind r (RefSet.mem_ofList.mp hr))) hd.rank_lt
      hframe (grows_runInitializers hwalk hd.initializers)).discard.bind fun _ _ _ =>
    grows_runMethodsLater hcode hguard hwalk hd hsub hkind

end Anonymous

end Calls

/-! ### Names -/

section Names

variable {p : Phase}

theorem grows_pushThis :
    Grows rank k p (pushThis env) (pushThis env) (fun _ _ => True) .busy :=
  (grows_find (.inl rfl)).bind fun _ _ h => grows_push h

theorem grows_pushOuterThis (c : ClassId) :
    Grows rank k p (pushOuterThis env c) (pushOuterThis env c) (fun _ _ => True) .busy :=
  (grows_find (.inl rfl)).bind fun _ _ h => grows_push (List.filterMap_subset _ h)

theorem grows_implicitReceiver (owner : Option ClassId) :
    Grows rank k p (implicitReceiver env owner) (implicitReceiver env owner) (fun _ _ => True)
      .busy := by
  refine .ask (f := implicitReceiverFrom env owner) (g := implicitReceiverFrom env owner)
    fun mc => ?_
  refine .ite (fun _ => grows_pushThis) fun _ => ?_
  have hfar : Grows rank k p (farReceiver env owner mc) (farReceiver env owner mc)
      (fun _ _ => True) .busy := by
    cases mc with
    | none => exact .of_throw
    | some c =>
      dsimp only [farReceiver]
      split
      · exact Grows.ofBusy (.pure trivial)
      · exact grows_pushOuterThis _
  split
  · exact grows_pushOuterThis _
  · exact hfar

theorem grows_ident (name : String) (sym : Option Symbol) :
    Grows rank k p (ident env name sym) (ident env name sym) (fun _ _ => True) .busy := by
  refine .ite (fun _ => grows_pushThis) fun _ => ?_
  split
  · exact (grows_find (.inr rfl)).bind fun _ _ h => grows_push h
  · exact .ite (fun _ => Grows.ofBusy (.pure trivial)) fun _ => grows_implicitReceiver _
  · exact Grows.ofBusy (.pure trivial)

theorem grows_qualifiedThis (c : Option ClassId) (super : Bool) :
    Grows rank k p (qualifiedThis env c super) (qualifiedThis env c super) (fun _ _ => True)
      .busy := by
  refine .ask (f := qualifiedThisFrom env c super) (g := qualifiedThisFrom env c super) fun mc => ?_
  cases c with
  | none => exact Grows.ofBusy (.pure trivial)
  | some c =>
    exact .ite (fun _ => grows_pushThis) fun _ => .ite (fun _ => grows_pushOuterThis c) fun _ =>
      Grows.ofBusy (.pure trivial)

end Names

/-! ### Expressions -/

section Expressions

variable (hcode : PlainCode env rank code) (hguard : env.guard = .running)
  (hwalk : Walks env rank code n m)

include hwalk in
theorem grows_select {x : Option Expr} (hx : ∀ e, x = some e → code k (.expr e)) (name : String)
    (sym : Option Symbol) :
    Grows rank k .idle (select env (exec env n) x name sym) (select env (exec env m) x name sym)
      (fun _ _ => True) .busy := by
  unfold select
  split
  · exact grows_qualifiedThis _ _
  · refine (grows_value hwalk hx).bind fun rs rs' hrs => ?_
    split
    · exact .ite (fun _ => Grows.ofBusy (.pure trivial)) fun _ => grows_push hrs
    · exact Grows.ofBusy (.pure trivial)

include hcode hguard hwalk in
theorem grows_call {span : Span} {callee : Option Expr} {args : List (Option Expr)}
    (hn : code k (.expr (.call span callee args))) (site : Site) :
    Grows rank k .idle (call env (exec env n) site callee args)
      (call env (exec env m) site callee args) (fun _ _ => True) .busy := by
  have hargs : ∀ a ∈ args, ∀ x, a = some x → code k (.expr x) := fun a ha x hx =>
    hcode.child k _ _ hn ⟨rfl, by simpa using .inr (hx ▸ ha)⟩
  cases hsuper : isSuperCall env callee with
  | true =>
    rw [call, call, if_pos hsuper, if_pos hsuper]
    exact (grows_evalDrops hwalk hargs).ofBusy
  | false =>
    have hcallee : ∀ x, callee = some x → code k (.expr x) := fun x hx =>
      hcode.child k _ _ hn ⟨rfl, by simp [hx]⟩
    have hreceivers : Grows rank k .idle (callReceivers env (exec env n) callee)
        (callReceivers env (exec env m) callee) (fun rs rs' => rs ⊆ rs') .idle := by
      refine (grows_eval hwalk hcallee).bind fun _ _ _ => .ite (fun _ => ?_) fun _ => ?_
      · exact grows_dropResult.bind fun _ _ _ => .pure (List.Subset.refl [])
      · exact grows_takeResult.bind fun _ _ h => .pure (List.map_subset _ h)
    have hprogram : Program (World.all env.table env.catalog) .all .idle
        (fun mode => callReceivers (World.env _ mode) mode.walk callee) (World.Receivers _) .idle :=
      program_callReceivers Effects.coversExpr_all
    rw [call_eq hsuper, call_eq hsuper]
    exact (Grows.withValue hprogram hreceivers).bind fun rs rs' h =>
      grows_invoke hcode hguard hwalk rfl (hcode.call k _ _ _ hn hsuper) hargs h.1 fun r hr =>
        (h.2 r hr).2

/-- The outer instances as which the receivers hold a new instance. -/
theorem grows_outerReceiver (c : ClassId) {p : Phase} :
    Grows rank k p (outerReceiver env c) (outerReceiver env c) (fun rs rs' => rs ⊆ rs') p :=
  .ask (f := fun mc => receivers env >>= fun rs => pure (rs.filterMap fun r =>
    (outerOf env.table c mc r).bind (·.toOuter (some c)))) fun _ =>
      (grows_find (.inl rfl)).bind fun _ _ h => .pure (List.filterMap_subset _ h)

include hcode hguard hwalk in
theorem grows_create {span : Span} {outer : Option Expr} {cls : Option ClassId}
    {ctor : Option MethodId} {args : List (Option Expr)} {body : Option ClassDecl}
    (hn : code k (.expr (.new span outer cls ctor args body))) (site : Site) :
    Grows rank k .idle (create env (exec env n) site outer cls ctor args body)
      (create env (exec env m) site outer cls ctor args body) (fun _ _ => True) .busy := by
  have hargs : ∀ a ∈ args, ∀ x, a = some x → code k (.expr x) := fun a ha x hx =>
    hcode.child k _ _ hn ⟨rfl, by simp [hx ▸ ha]⟩
  have hreceivers : Grows rank k .idle (newReceivers env (exec env n) outer cls)
      (newReceivers env (exec env m) outer cls) (fun rs rs' => rs ⊆ rs') .idle := by
    cases outer with
    | some e =>
      refine (grows_value hwalk ?_).bind fun _ _ h =>
        .pure (List.map_subset _ (List.filterMap_subset _ h))
      rintro _ ⟨⟩
      exact hcode.child k _ _ hn ⟨rfl, by simp⟩
    | none =>
      cases cls with
      | none => exact .pure (List.Subset.refl [])
      | some c =>
        exact .ite (fun _ => grows_outerReceiver c) fun _ => .pure (List.Subset.refl [])
  have hprogram : Program (World.all env.table env.catalog) .all .idle
      (fun mode => newReceivers (World.env _ mode) mode.walk outer cls) (World.Receivers _) .idle :=
    program_newReceivers (World.all_closed env.table env.catalog) trivial Effects.coversExpr_all
  have hctor := hcode.new k _ _ _ _ _ _ hn
  rw [create_eq, create_eq]
  refine (Grows.withValue hprogram hreceivers).bind fun rs rs' h => ?_
  have hthis : ∀ r ∈ rs', r.kind = .this := fun r hr => (h.2 r hr).2
  cases body with
  | none => exact grows_invoke hcode hguard hwalk rfl hctor hargs h.1 hthis
  | some d =>
    exact grows_anonymous hcode hguard hwalk rfl hctor hargs (hcode.body k _ _ _ _ _ _ hn) h.1 hthis

include hwalk in
/-- A method reference captures receivers for the same sorts of references. -/
theorem grows_capturedReceivers {x : Option Expr} (hx : ∀ e, x = some e → code k (.expr e))
    (sym : Option MethodId) (kind : MemberRefKind) :
    Grows rank k .idle (capturedReceivers env (exec env n) x sym kind)
      (capturedReceivers env (exec env m) x sym kind) (Option.Rel (· ⊆ ·)) .idle := by
  have hnone : Grows rank k .idle
      (do
        evalDrop (exec env n) x
        return none)
      (do
        evalDrop (exec env m) x
        return none) (Option.Rel (fun rs rs' : List Ref => rs ⊆ rs')) .idle :=
    (grows_evalDrop hwalk hx).bind fun _ _ _ => .pure .none
  cases kind with
  | bound =>
    exact (grows_value hwalk hx).bind fun _ _ h => .pure (.some (List.map_subset _ h))
  | super =>
    exact (grows_evalDrop hwalk hx).bind fun _ _ _ =>
      (grows_find (.inl rfl)).bind fun _ _ h => .pure (.some h)
  | implicitInner =>
    refine (grows_evalDrop hwalk hx).bind fun _ _ _ => ?_
    cases sym with
    | none => exact .pure (.some (List.Subset.refl []))
    | some s =>
      dsimp only
      cases (env.table.method s).owner with
      | none => exact .of_throw
      | some c => exact (grows_outerReceiver c).bind fun _ _ h => .pure (.some h)
  | static => exact hnone
  | unbound => exact hnone
  | topLevel => exact hnone
  | arrayConstructor => exact hnone

include hcode hguard hwalk in
theorem grows_memberRef {span : Span} {x : Option Expr} {name : String} {sym : Option MethodId}
    {kind : MemberRefKind} {type : Option ClassId}
    (hn : code k (.expr (.memberRef span x name sym kind type))) (site : Site) :
    Grows rank k .idle (memberRef env (exec env n) site x sym kind type)
      (memberRef env (exec env m) site x sym kind type) (fun _ _ => True) .busy := by
  have hw := World.all_closed env.table env.catalog
  have hprogram : Program (World.all env.table env.catalog) .all .idle
      (fun mode => capturedReceivers (World.env _ mode) mode.walk x sym kind) _ .idle :=
    program_capturedReceivers hw Effects.coversExpr_all
  rw [memberRef_eq, memberRef_eq]
  refine (Grows.withValue hprogram (grows_capturedReceivers hwalk
    (fun e he => hcode.child k _ _ hn ⟨rfl, by simp [he]⟩) sym kind)).bind fun o o' h => ?_
  cases h.1 with
  | none => exact Grows.ofBusy (.pure trivial)
  | @some rs rs' hrs =>
    have hr' : World.Receivers _ rs' := h.2 rs' rfl
    have hr : World.Receivers (World.all env.table env.catalog) rs := fun r hr => hr' r (hrs hr)
    have hcall : Program (World.all env.table env.catalog)
        { Effects.all with gives := fun role => role ≠ .returned } .idle
        (fun mode => invoke (World.env _ mode) mode.walk site sym [] rs) _ .busy :=
      program_invoke hw (fun _ ha => absurd ha List.not_mem_nil) hr
        ⟨fun _ _ => trivial, fun _ _ _ => trivial, fun _ _ _ => trivial⟩
    have hdeferred : Program (World.all env.table env.catalog) .all .idle
        (fun mode => deferredCall (World.env _ mode) mode.walk site sym type (some rs')) _ .busy :=
      program_deferredCall hw trivial h.2 fun _ _ =>
        ⟨fun _ _ => trivial, fun _ _ _ => trivial, fun _ _ _ => trivial⟩
    exact grows_deferred (fun s s' hs => (hcall.of_run hs).2) (fun hne => hne rfl)
      (fun u u' hu hin => hdeferred.steady hin hu)
      (grows_invoke hcode hguard hwalk rfl (hcode.memberRef k _ _ _ _ _ _ hn)
        (fun _ ha => absurd ha List.not_mem_nil) hrs fun r hr => (hr' r hr).2)

theorem grows_bind (d : VarDecl) {rs rs' : List Ref} (hrs : rs ⊆ rs') {p : Phase} :
    Grows rank k p (bind env rs d) (bind env rs' d) (fun _ _ => True) p := by
  unfold Interp.bind
  cases d.sym with
  | none => exact .pure trivial
  | some v =>
    refine grows_add (List.map_subset _ hrs) fun r hr => ?_
    obtain ⟨x, -, rfl⟩ := List.mem_map.mp hr
    exact nofun

include hwalk in
theorem grows_runElements (type : Option ClassId) {es : List (Option Expr)}
    (h : ∀ e ∈ es, ∀ x, e = some x → code k (.expr x)) :
    Grows rank k .idle (runElements env (exec env n) type es) (runElements env (exec env m) type es)
      (fun rs rs' => rs ⊆ rs') .idle := by
  induction es with
  | nil => exact .pure (List.Subset.refl [])
  | cons e es ih =>
    refine (grows_value hwalk (h e List.mem_cons_self)).bind fun rs rs' hrs =>
      (ih fun x hx => h x (List.mem_cons_of_mem e hx)).bind fun rest rest' hrest => .pure ?_
    exact List.append_subset.mpr
      ⟨List.subset_append_of_subset_left _ (List.map_subset _ (List.filterMap_subset _ hrs)),
        List.subset_append_of_subset_right _ hrest⟩

include hcode hguard hwalk in
/-- Plain expressions lead from larger states to larger states. -/
theorem grows_stepExpr (e : Expr) (hn : code k (.expr e)) :
    Grows rank k .idle (stepExpr env (exec env n) e) (stepExpr env (exec env m) e)
      (fun _ _ => True) .busy := by
  have hplain := hcode.plain k _ hn
  have hchild (hruns : (Node.expr e).runsChildren = true) :
      ∀ c ∈ (Node.expr e).children, code k c :=
    fun c hc => hcode.child k _ c hn ⟨hruns, hc⟩
  cases e with
  | assign span lhs rhs =>
    refine (grows_evalDrop hwalk fun x hx => hchild rfl _ (by simp [hx])).bind fun _ _ _ => ?_
    split
    · exact (grows_eval hwalk fun x hx => hchild rfl _ (by simp [hx])).bind fun _ _ _ =>
        Grows.ofBusy (grows_store nofun)
    · exact (grows_evalDrop hwalk fun x hx => hchild rfl _ (by simp [hx])).bind fun _ _ _ =>
        Grows.ofBusy grows_dropResult
  | assignOp span op lhs rhs =>
    exact Grows.ofBusy ((grows_evalDrop hwalk fun x hx => hchild rfl _ (by simp [hx])).bind
      fun _ _ _ => grows_evalDrop hwalk fun x hx => hchild rfl _ (by simp [hx]))
  | binary span op x y =>
    exact Grows.ofBusy ((grows_evalDrop hwalk fun x hx => hchild rfl _ (by simp [hx])).bind
      fun _ _ _ => grows_evalDrop hwalk fun x hx => hchild rfl _ (by simp [hx]))
  | call span callee args => exact grows_call hcode hguard hwalk hn _
  | cast span type x =>
    cases type with
    | none =>
      exact (grows_evalDrop hwalk fun x hx => hchild rfl _ (by simp [hx])).bind fun _ _ _ =>
        Grows.ofBusy grows_dropResult
    | some c =>
      exact (grows_eval hwalk fun x hx => hchild rfl _ (by simp [hx])).bind fun _ _ _ =>
        grows_retype (some c)
  | conditional span cond yes no =>
    exact (grows_evalDrop hwalk fun x hx => hchild rfl _ (by simp [hx])).bind fun _ _ _ =>
      (grows_value hwalk fun x hx => hchild rfl _ (by simp [hx])).bind fun _ _ ha =>
      (grows_value hwalk fun x hx => hchild rfl _ (by simp [hx])).bind fun _ _ hb =>
      (grows_push ha).bind fun _ _ _ => grows_push hb
  | ident span name sym => exact grows_ident name sym
  | index span x i elem =>
    refine (grows_value hwalk fun x hx => hchild rfl _ (by simp [hx])).bind fun rs rs' hrs =>
      (grows_evalDrop hwalk fun x hx => hchild rfl _ (by simp [hx])).bind fun _ _ _ => ?_
    cases elem with
    | none => exact Grows.ofBusy (.pure trivial)
    | some c => exact grows_push (List.filterMap_subset _ hrs)
  | instanceOf span x type binding =>
    refine (grows_value hwalk fun x hx => hchild rfl _ (by simp [hx])).bind fun rs rs' hrs => ?_
    cases binding with
    | none => exact Grows.ofBusy (.pure trivial)
    | some d => exact Grows.ofBusy (grows_bind d hrs)
  | lambda => cases hplain
  | literal => exact Grows.ofBusy (.pure trivial)
  | typeName => exact Grows.ofBusy (.pure trivial)
  | memberRef => exact grows_memberRef hcode hguard hwalk hn _
  | new => exact grows_create hcode hguard hwalk hn _
  | newArray span type dims elems =>
    refine (grows_evalDrops hwalk fun d hd x hx => hchild rfl _ ?_).bind fun _ _ _ =>
      (grows_runElements hwalk type fun e he x hx => hchild rfl _ ?_).bind fun _ _ h => grows_push h
    · simp [hx ▸ hd]
    · simp [hx ▸ he]
  | paren span x => exact grows_eval hwalk fun x hx => hchild rfl _ (by simp [hx])
  | select span x name sym =>
    exact grows_select hwalk (fun x hx => hchild rfl _ (by simp [hx])) name sym
  | switchExpr => cases hplain
  | unary span op x =>
    exact Grows.ofBusy (grows_evalDrop hwalk fun x hx => hchild rfl _ (by simp [hx]))
  | unknown span sort => exact .of_throw

end Expressions

/-! ### Statements -/

section Statements

variable (hcode : PlainCode env rank code) (hguard : env.guard = .running)
  (hwalk : Walks env rank code n m)

include hcode hwalk in
theorem grows_runCase {c : Case} (hn : code k (.switchCase c)) {rs rs' : List Ref}
    (hrs : rs ⊆ rs') :
    Grows rank k .idle (runCase env (exec env n) rs c) (runCase env (exec env m) rs' c)
      (fun _ _ => True) .idle := by
  have hchild : ∀ d ∈ (Node.switchCase c).children, code k d := fun d hd =>
    hcode.child k _ d hn ⟨rfl, hd⟩
  refine (grows_evalDrops hwalk fun e he x hx => hchild _ ?_).bind fun _ _ _ => ?_
  · simp [hx ▸ he]
  have hbindings : ∀ l : List VarDecl, Grows rank k .idle (l.forM (Interp.bind env rs))
      (l.forM (Interp.bind env rs')) (fun _ _ => True) .idle := fun l =>
    .forM fun d _ => grows_bind d hrs
  refine (hbindings c.bindings).bind fun _ _ _ =>
    (grows_evalDrop hwalk fun x hx => hchild _ (by simp [hx])).bind fun _ _ _ =>
    grows_runStmts hwalk fun s hs x hx => hchild _ ?_
  simp [hx ▸ hs]

include hcode hwalk in
/-- A pass of a plain loop leads from larger states to larger states. -/
theorem grows_loopPass (s : Stmt) (hn : code k (.stmt s)) :
    Grows rank k .idle (loopPass env (exec env n) s) (loopPass env (exec env m) s)
      (fun _ _ => True) .idle := by
  have hplain := hcode.plain k _ hn
  have hchild (hruns : (Node.stmt s).runsChildren = true) :
      ∀ c ∈ (Node.stmt s).children, code k c :=
    fun c hc => hcode.child k _ c hn ⟨hruns, hc⟩
  cases s with
  | doLoop span body cond =>
    exact (grows_runStmt hwalk fun x hx => hchild rfl _ (by simp [hx])).bind fun _ _ _ =>
      grows_evalDrop hwalk fun x hx => hchild rfl _ (by simp [hx])
  | forLoop span init cond post body =>
    refine (grows_evalDrop hwalk fun x hx => hchild rfl _ (by simp [hx])).bind fun _ _ _ =>
      (grows_runStmt hwalk fun x hx => hchild rfl _ (by simp [hx])).bind fun _ _ _ =>
      grows_runStmts hwalk fun s hs x hx => hchild rfl _ ?_
    simp [hx ▸ hs]
  | forEach => cases hplain
  | whileLoop span cond body =>
    exact (grows_evalDrop hwalk fun x hx => hchild rfl _ (by simp [hx])).bind fun _ _ _ =>
      grows_runStmt hwalk fun x hx => hchild rfl _ (by simp [hx])
  | _ => exact .pure trivial

include hcode hwalk in
/-- Plain statements lead from larger states to larger states. -/
theorem grows_stmtEffect (s : Stmt) (hn : code k (.stmt s)) :
    Grows rank k .idle (stmtEffect env (exec env n) s) (stmtEffect env (exec env m) s)
      (fun _ _ => True) .idle := by
  have hplain := hcode.plain k _ hn
  have hchild (hruns : (Node.stmt s).runsChildren = true) :
      ∀ c ∈ (Node.stmt s).children, code k c :=
    fun c hc => hcode.child k _ c hn ⟨hruns, hc⟩
  have hloop : Grows rank k .idle (exec env n (.loop s)) (exec env m (.loop s)) (fun _ _ => True)
      .idle := hwalk k (.loop s) hn
  cases s with
  | assertStmt span cond detail =>
    exact (grows_evalDrop hwalk fun x hx => hchild rfl _ (by simp [hx])).bind fun _ _ _ =>
      grows_evalDrop hwalk fun x hx => hchild rfl _ (by simp [hx])
  | block b =>
    refine grows_runBlock hwalk hcode (b := some b) ?_
    rintro _ ⟨⟩
    exact hn
  | branch => exact .pure trivial
  | empty => exact .pure trivial
  | classDecl => exact .pure trivial
  | doLoop => exact hloop
  | exprStmt span x => exact grows_evalDrop hwalk fun x hx => hchild rfl _ (by simp [hx])
  | forLoop span init cond post body =>
    refine .inScope
      ((grows_runStmts hwalk fun s hs x hx => hchild rfl _ ?_).bind fun _ _ _ => hloop)
    simp [hx ▸ hs]
  | forEach => cases hplain
  | ifElse span cond yes no =>
    exact (grows_evalDrop hwalk fun x hx => hchild rfl _ (by simp [hx])).bind fun _ _ _ =>
      (grows_runStmt hwalk fun x hx => hchild rfl _ (by simp [hx])).bind fun _ _ _ =>
      grows_runStmt hwalk fun x hx => hchild rfl _ (by simp [hx])
  | labeled span label body => exact grows_runStmt hwalk fun x hx => hchild rfl _ (by simp [hx])
  | returnStmt span result =>
    cases result with
    | none => exact .pure trivial
    | some e =>
      exact (hwalk k (.expr e) (hchild rfl _ (by simp))).bind fun _ _ _ =>
        grows_store (by simp [Ref.Role.kind])
  | switch span selector cases =>
    exact .inScope ((grows_value hwalk fun x hx => hchild rfl _ (by simp [hx])).bind
      fun rs rs' hrs => .forM fun c hc =>
        grows_runCase hcode hwalk (hchild rfl _ (by simp [hc])) hrs)
  | synchronized span lock body =>
    refine (grows_evalDrop hwalk fun x hx => hchild rfl _ (by simp [hx])).bind fun _ _ _ =>
      grows_runBlock hwalk hcode fun x hx => hchild rfl _ (by simp [hx])
  | throwStmt span x =>
    exact (grows_eval hwalk fun x hx => hchild rfl _ (by simp [hx])).bind fun _ _ _ =>
      grows_dropOrLeak _
  | tryCatch span resources body catches finalizer =>
    refine (Grows.inScope ((grows_runStmts hwalk fun s hs x hx => hchild rfl _ ?_).bind fun _ _ _ =>
      grows_runBlock hwalk hcode fun x hx => hchild rfl _ (by simp [hx]))).bind fun _ _ _ =>
      (Grows.forM fun c hc => grows_runBlock hwalk hcode fun x hx => ?_).bind fun _ _ _ =>
      grows_runBlock hwalk hcode fun x hx => hchild rfl _ (by simp [hx])
    · simp [hx ▸ hs]
    · have hclause : code k (.catchClause c) := hchild rfl _ (by simp [hc])
      exact hcode.child k _ _ hclause ⟨rfl, by simp [hx]⟩
  | varDecl d =>
    change Grows rank k .idle (declare env (exec env n) d) (declare env (exec env m) d) _ _
    cases he : d.init with
    | none =>
      simp only [declare, he]
      exact .pure trivial
    | some e =>
      simp only [declare, he]
      split
      · exact (hwalk k (.expr e) (hchild rfl _ (by simp [he]))).bind fun _ _ _ =>
          grows_store (by simp [Ref.Role.kind])
      · exact hwalk k (.drop e) (hchild rfl _ (by simp [he]))
  | whileLoop => exact hloop
  | yieldStmt span value =>
    exact (grows_eval hwalk fun x hx => hchild rfl _ (by simp [hx])).bind fun _ _ _ =>
      grows_store (by simp [Ref.Role.kind])
  | unknown span sort => exact .of_throw

end Statements

/-! ### The interpreter -/

/-- Plain code leads from larger states to larger states, whatever the bounds on the steps. -/
theorem exec_grows (hcode : PlainCode env rank code) (hguard : env.guard = .running) (n : Nat) :
    ∀ m, Walks env rank code n m := by
  induction n with
  | zero => exact fun _ _ _ _ _ _ _ _ _ _ _ _ _ hs => nomatch hs
  | succ n ih =>
    intro m k t ht
    obtain _ | m := m
    · exact fun _ _ _ _ _ _ _ _ _ _ hu => nomatch hu
    cases t with
    | expr e => exact grows_stepExpr hcode hguard (ih m) e ht
    | drop e =>
      exact (grows_stepExpr hcode hguard (ih m) e ht).bind fun _ _ _ => grows_dropResult
    | stmt s =>
      exact (grows_stmtEffect hcode (ih m) s ht).bind fun _ _ _ => grows_check s
    | loop s =>
      intro s₀ u hsu hin habove _ _ s' u' hs hu
      obtain ⟨hin', hframe⟩ := exec_steady (n := m + 1) hin hu
      refine ⟨trivial, looped_under (hcode.not_takes ht) hsu hin ?_ hs hu, hin', hframe.toAll⟩
      intro i v s₁ s₂ v₂ _ hunder hidle hrunning hs hv
      exact (grows_loopPass hcode (ih m) s ht s₁ v hunder hidle (habove.of_running hrunning) () ()
        s₂ v₂ hs hv).2.1

end Plain

end Interp

end EarlyEscape
