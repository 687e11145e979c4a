import EarlyEscape.Proofs.Interp.Calls

/-!
# The handlers are programs

Every handler of the interpreter is put together from basic steps, with the effects of its node.

## Main results

* `Interp.program_step` : the handler of every expression and every statement is a program.
* `Interp.program_loopPass` : so is a pass of a loop.
-/

namespace EarlyEscape

namespace Interp

attribute [local simp] Task.node Node.children Node.exprChildren Node.stmtChildren

/-! ### Names -/

section Names

variable {w : World} {E : Effects}

theorem program_pushThis {p : Phase} :
    Program w E p (fun m => pushThis (w.env m)) (fun _ => True) .busy :=
  .bind program_receivers fun _ hrs => program_push fun r hr => (hrs r hr).1

theorem program_pushOuterThis (hw : w.Closed) {p : Phase} {c : ClassId} (hc : w.types (some c)) :
    Program w E p (fun m => pushOuterThis (w.env m) c) (fun _ => True) .busy :=
  .bind program_receivers fun _ hrs =>
    program_push (hw.tracks_filterMap hc fun r hr => (hrs r hr).1)

/-- The outer instance, of a subclass of the class `owner`, as seen from code of the class `mc`. -/
def farReceiver (env : Env) (owner : Option ClassId) : Option ClassId → Interp Unit
  | none => throw .missing
  | some mc =>
    match env.table.enclosingSubclass? mc owner with
    | none => pure ()
    | some outer => pushOuterThis env outer

/-- The implicit receiver of a method of the class `owner`, as seen from code of the class `mc`. -/
def implicitReceiverFrom (env : Env) (owner mc : Option ClassId) : Interp Unit :=
  if env.table.isSubclass mc owner then pushThis env
  else
    match owner, env.table.isEnclosedBy mc owner with
    | some c, true => pushOuterThis env c
    | _, _ => farReceiver env owner mc

theorem program_implicitReceiver (hw : w.Closed) {p : Phase} {owner : Option ClassId}
    (ho : w.types owner) :
    Program w E p (fun m => implicitReceiver (w.env m) owner) (fun _ => True) .busy := by
  refine .ask (f := fun mc m => implicitReceiverFrom (w.env m) owner mc) fun mc => ?_
  refine program_ite (c := w.table.isSubclass mc owner) (fun _ => program_pushThis) fun _ => ?_
  have hfar : Program w E p (fun m => farReceiver (w.env m) owner mc) (fun _ => True) .busy := by
    cases mc with
    | none => exact .stop nofun nofun (.inl rfl)
    | some c =>
      change Program w E p (fun m =>
        match w.table.enclosingSubclass? c owner with
        | none => pure ()
        | some outer => pushOuterThis (w.env m) outer) _ _
      cases h : w.table.enclosingSubclass? c owner with
      | none => exact (Program.pure trivial).ofBusy
      | some outer => exact program_pushOuterThis hw (h ▸ hw.enclosingSubclass c owner)
  cases owner with
  | none => exact hfar
  | some c =>
    change Program w E p (fun m =>
      match some c, w.table.isEnclosedBy mc (some c) with
      | some c, true => pushOuterThis (w.env m) c
      | _, _ => farReceiver (w.env m) (some c) mc) _ _
    cases w.table.isEnclosedBy mc (some c) with
    | true => exact program_pushOuterThis hw ho
    | false => exact hfar

theorem program_ident (hw : w.Closed) {p : Phase} {name : String} {sym : Option Symbol}
    (hreads : ∀ v, sym = some (.var v) → E.reads v) :
    Program w E p (fun m => ident (w.env m) name sym) (fun _ => True) .busy := by
  refine program_ite (fun _ => program_pushThis) fun _ => ?_
  split
  · refine .bind (program_find (.inr ⟨rfl, fun r u hr hu => hreads u ?_⟩)) fun rs hrs =>
      program_push fun r hr => (hrs r hr).1
    simp only [Ref.var?, hu, beq_iff_eq, Option.some.injEq] at hr
    rw [hr]
  · next s =>
    exact program_ite (c := (w.table.method s).isStatic || (w.table.method s).isConstructor)
      (fun _ => (Program.pure trivial).ofBusy) fun _ => program_implicitReceiver hw (hw.owner s)
  · exact (Program.pure trivial).ofBusy

/-- The receiver under the name of the class `c`, as seen from code of the class `mc`. -/
def qualifiedThisFrom (env : Env) (c : Option ClassId) (super : Bool) (mc : Option ClassId) :
    Interp Unit :=
  match c with
  | none => pure ()
  | some c =>
    if mc == some c || (super && !env.table.isEnclosedBy mc (some c)) then pushThis env
    else if env.table.isEnclosedBy mc (some c) then pushOuterThis env c
    else pure ()

theorem program_qualifiedThis (hw : w.Closed) {p : Phase} {c : Option ClassId} {super : Bool}
    (hc : w.types c) :
    Program w E p (fun m => qualifiedThis (w.env m) c super) (fun _ => True) .busy := by
  refine .ask (f := fun mc m => qualifiedThisFrom (w.env m) c super mc) fun mc => ?_
  cases c with
  | none => exact (Program.pure trivial).ofBusy
  | some c =>
    refine program_ite (c := mc == some c || (super && !w.table.isEnclosedBy mc (some c)))
      (fun _ => program_pushThis) fun _ => ?_
    exact program_ite (c := w.table.isEnclosedBy mc (some c))
      (fun _ => program_pushOuterThis hw hc) fun _ => (Program.pure trivial).ofBusy

/-- A selection is a program. -/
theorem program_select (hw : w.Closed) {span : Span} {x : Option Expr} {name : String}
    {sym : Option Symbol} (hn : w.nodes (.expr (.select span x name sym))) :
    Program w (.ofTask (.expr (.select span x name sym))) .idle
      (fun m => select (w.env m) m.walk x name sym) (fun _ => True) .busy := by
  have hchild : ∀ e, x = some e →
      Node.expr e ∈ (Node.expr (.select span x name sym)).children := by
    rintro e rfl
    simp
  unfold select
  split
  · next c hq =>
    refine program_qualifiedThis hw ?_
    unfold qualifier? at hq
    split at hq
    · split at hq
      · next inner c' hx =>
        cases hq
        cases x with
        | none => simp [unparen?] at hx
        | some e =>
          have hbelow : (Node.expr (.select span (some e) name sym)).RunsBelow
              (.expr (.typeName inner c)) :=
            .head' ⟨rfl, hchild e rfl⟩ (Node.runs_of_unparen? hx)
          exact hw.named _ (hw.below _ _ hn hbelow.below) c List.mem_cons_self
      · cases hq
    · cases hq
  · refine .bind (program_value (Effects.coversExpr_child rfl hchild)) fun rs hrs => ?_
    split
    · next s =>
      exact program_ite (c := (w.table.method s).isStatic)
        (fun _ => (Program.pure trivial).ofBusy) fun _ => program_push hrs
    · exact (Program.pure trivial).ofBusy

end Names

/-! ### Expressions -/

section Expressions

variable {w : World} {E : Effects}

theorem covers_call {span : Span} {callee : Option Expr} {args : List (Option Expr)} :
    (Effects.ofTask (.expr (.call span callee args))).CoversExpr callee ∧
      ∀ a ∈ args, (Effects.ofTask (.expr (.call span callee args))).CoversExpr a :=
  ⟨Effects.coversExpr_child rfl fun x hx => by simp [hx],
    fun a ha => Effects.coversExpr_child rfl fun x hx => by simp [hx ▸ ha]⟩

/-- The receivers of a call of the method `mth`: the values of the callee, unless it is static. -/
def callReceivers (env : Env) (walk : Walk) (callee : Option Expr) : Interp (List Ref) := do
  eval walk callee
  if (methodOf? callee).any fun m => (env.table.method m).isStatic then
    dropResult
    return []
  else
    let rs ← takeResult env
    return rs.map (·.asThis)

/-- A call finds its receivers first. -/
theorem call_eq {env : Env} {walk : Walk} {site : Site} {callee : Option Expr}
    {args : List (Option Expr)} (h : isSuperCall env callee = false) :
    call env walk site callee args =
      callReceivers env walk callee >>= invoke env walk site (methodOf? callee) args := by
  simp only [call, callReceivers, h, Bool.false_eq_true, if_false, bind_assoc]
  congr 1
  funext _
  split <;> simp only [bind_assoc, pure_bind]

theorem program_callReceivers {callee : Option Expr} (h : E.CoversExpr callee) :
    Program w E .idle (fun m => callReceivers (w.env m) m.walk callee) w.Receivers .idle := by
  refine .bind (program_eval h) fun _ _ =>
    program_ite (c := (methodOf? callee).any fun s => (w.table.method s).isStatic) (fun _ => ?_)
      fun _ => ?_
  · exact .bind program_dropResult fun _ _ => .pure nofun
  · exact .bind program_takeResult fun rs hrs => .pure (World.receivers_asThis hrs)

theorem program_call (hw : w.Closed) {span : Span} {callee : Option Expr}
    {args : List (Option Expr)} {site : Site} :
    Program w (.ofTask (.expr (.call span callee args))) .idle
      (fun m => call (w.env m) m.walk site callee args) (fun _ => True) .busy := by
  obtain ⟨hcallee, hargs⟩ := @covers_call span callee args
  cases hsuper : isSuperCall w.base callee with
  | true =>
    refine (program_evalDrops hargs).ofBusy.of_eq fun m => ?_
    rw [call, if_pos (show isSuperCall (w.env m) callee = true from hsuper)]
  | false =>
    have hcalls : Task.MakesCalls (.expr (.call span callee args)) := trivial
    refine ((program_callReceivers hcallee).bind fun rs hrs => ?_).of_eq fun m => call_eq hsuper
    exact program_invoke hw hargs hrs (Effects.permits_ofTask hcalls)

/-! ### Functions -/

theorem program_runLambdaBody {span : Span} {params : List VarDecl} {body : Option Node}
    {type : Option ClassId} :
    Program w (Effects.ofTask (.expr (.lambda span params body type))).deferred .idle
      (fun m => runLambdaBody (w.env m) m.walk body) (fun _ => True) .idle := by
  have hbody : ∀ n, body = some n → (Node.expr (.lambda span params body type)).Below n :=
    fun n hn => .single (by simp [hn])
  unfold runLambdaBody
  split
  · next b =>
    refine program_runBlock ?_
    rintro b ⟨⟩ s hs x rfl
    exact Effects.covers_deferred (.tail (hbody _ rfl) (by
      simpa using hs)) fun _ => trivial
  · next e =>
    exact .bind (.run (Effects.covers_deferred (hbody _ rfl) fun _ => trivial)) fun _ _ =>
      program_store trivial nofun nofun
  · exact .pure trivial

theorem program_lambda (hw : w.Closed) {span : Span} {params : List VarDecl} {body : Option Node}
    {type : Option ClassId} (ht : w.types type) :
    Program w (.ofTask (.expr (.lambda span params body type))) .idle
      (fun m => lambda (w.env m) m.walk body type) (fun _ => True) .busy :=
  .deferred ht (fun _ hi => hw.ind _ _ hi rfl) (.scope (p := .idle) program_runLambdaBody)

theorem program_capturedReceivers (hw : w.Closed) {x : Option Expr} {sym : Option MethodId}
    {kind : MemberRefKind} (hx : E.CoversExpr x) :
    Program w E .idle (fun m => capturedReceivers (w.env m) m.walk x sym kind)
      (fun o => ∀ rs, o = some rs → w.Receivers rs) .idle := by
  have hnone : Program w E .idle (fun m => do
      evalDrop m.walk x
      return none) (fun o : Option (List Ref) => ∀ rs, o = some rs → w.Receivers rs) .idle :=
    .bind (program_evalDrop hx) fun _ _ => .pure nofun
  cases kind with
  | bound =>
    refine .bind (program_value hx) fun rs hrs => .pure ?_
    rintro _ ⟨⟩
    exact World.receivers_asThis hrs
  | super =>
    refine .bind (program_evalDrop hx) fun _ _ => .bind program_receivers fun rs hrs => .pure ?_
    rintro _ ⟨⟩
    exact hrs
  | implicitInner =>
    refine .bind (program_evalDrop hx) fun _ _ => ?_
    cases sym with
    | none =>
      refine .pure ?_
      rintro _ ⟨⟩
      exact nofun
    | some s =>
      change Program w E .idle (fun m =>
        match (w.table.method s).owner with
        | none => throw .missing
        | some c => outerReceiver (w.env m) c >>= fun rs => pure (some rs)) _ _
      cases ho : (w.table.method s).owner with
      | none => exact .stop nofun nofun (.inl rfl)
      | some c =>
        refine .bind (program_outerReceiver hw (ho ▸ hw.owner s)) fun rs hrs => .pure ?_
        rintro _ ⟨⟩
        exact hrs
  | static => exact hnone
  | unbound => exact hnone
  | topLevel => exact hnone
  | arrayConstructor => exact hnone

theorem covers_memberRef {span : Span} {x : Option Expr} {name : String} {sym : Option MethodId}
    {kind : MemberRefKind} {type : Option ClassId} :
    (Effects.ofTask (.expr (.memberRef span x name sym kind type))).CoversExpr x :=
  Effects.coversExpr_child rfl fun x hx => by simp [hx]

/-- The call of a method reference that may take place at any later time. -/
def deferredCall (env : Env) (walk : Walk) (site : Site) (sym : Option MethodId)
    (type : Option ClassId) : Option (List Ref) → Interp Unit
  | none => pure ()
  | some receiver => deferred env type (invoke env walk site sym [] receiver)

theorem memberRef_eq (env : Env) (walk : Walk) (site : Site) (x : Option Expr)
    (sym : Option MethodId) (kind : MemberRefKind) (type : Option ClassId) :
    memberRef env walk site x sym kind type =
      capturedReceivers env walk x sym kind >>= deferredCall env walk site sym type := by
  refine congrArg (capturedReceivers env walk x sym kind >>= ·) (funext fun o => ?_)
  cases o <;> rfl

theorem program_deferredCall (hw : w.Closed) {sym : Option MethodId} {site : Site}
    {type : Option ClassId} (ht : w.types type) {o : Option (List Ref)}
    (ho : ∀ rs, o = some rs → w.Receivers rs)
    (hp : ∀ rs, o = some rs → E.Permits w.base site.pos sym [] rs) :
    Program w E .idle (fun m => deferredCall (w.env m) m.walk site sym type o)
      (fun _ => True) .busy := by
  cases o with
  | none => exact (Program.pure trivial).ofBusy
  | some rs =>
    exact .deferred ht (fun _ hi => hw.ind _ _ hi rfl)
      (program_invoke hw nofun (ho rs rfl) (hp rs rfl).deferred)

theorem program_memberRef (hw : w.Closed) {x : Option Expr} {sym : Option MethodId} {site : Site}
    {kind : MemberRefKind} {type : Option ClassId} (ht : w.types type) (hx : E.CoversExpr x)
    (hp : ∀ rs, E.Permits w.base site.pos sym [] rs) :
    Program w E .idle (fun m => memberRef (w.env m) m.walk site x sym kind type)
      (fun _ => True) .busy := by
  refine ((program_capturedReceivers hw hx).bind fun o ho => ?_).of_eq fun m => memberRef_eq ..
  exact program_deferredCall hw ht ho fun rs _ => hp rs

/-! ### Patterns and switches -/

theorem Effects.Covers.gives_declared {d : VarDecl} {v : VarId} (h : E.Covers (.stmt (.varDecl d)))
    (hv : d.sym = some v) : E.gives (.var v) :=
  h.2.1 _ ⟨_, .refl, .target (.declare hv)⟩

theorem program_bind {d : VarDecl} {rs : List Ref} {p : Phase} (hw : w.Closed)
    (hn : w.nodes (.ofVarDecl d)) (hd : E.Covers (.stmt (.varDecl d)))
    (hrs : ∀ r ∈ rs, w.Tracks r) :
    Program w E p (fun m => bind (w.env m) rs d) (fun _ => True) p := by
  cases hv : d.sym with
  | none =>
    simp only [Interp.bind, hv]
    exact .pure trivial
  | some v =>
    simp only [Interp.bind, hv, World.env_table]
    refine program_add fun r hr => ?_
    obtain ⟨x, hx, rfl⟩ := List.mem_map.mp hr
    exact ⟨((hrs x hx).withType (hw.var v)).asVar (hw.declared hn hv), hd.gives_declared hv, nofun⟩

/-- The effects cover all parts of a case. -/
def Effects.CoversCase (E : Effects) (c : Case) : Prop :=
  ∀ t : Task, t.node ∈ (Node.switchCase c).children → E.Covers t

theorem program_runCase (hw : w.Closed) {c : Case} {rs : List Ref}
    (hn : w.nodes (.switchCase c)) (hc : E.CoversCase c) (hrs : ∀ r ∈ rs, w.Tracks r) :
    Program w E .idle (fun m => runCase (w.env m) m.walk rs c) (fun _ => True) .idle := by
  have hexpr (e : Option Expr) (h : ∀ x, e = some x →
      Node.expr x ∈ (Node.switchCase c).children) : E.CoversExpr e :=
    fun x hx t ht => hc t (ht ▸ h x hx)
  have hlabels : ∀ e ∈ c.labels, E.CoversExpr e :=
    fun e he => hexpr e fun x hx => by simp [hx ▸ he]
  have hguard : E.CoversExpr c.guard := hexpr c.guard fun x hx => by simp [hx]
  have hbody : ∀ s ∈ c.body, E.CoversStmt s := by
    rintro _ hs x rfl
    exact hc (.stmt x) (by simp [hs])
  refine .bind (program_evalDrops hlabels) fun _ _ => .bind (program_forM fun d hd => ?_)
    fun _ _ => .bind (program_evalDrop hguard) fun _ _ => program_runStmts hbody
  have hchild : Node.ofVarDecl d ∈ (Node.switchCase c).children := by simp [hd]
  exact program_bind hw (hw.below _ _ hn (.single hchild)) (hc (.stmt (.varDecl d)) hchild) hrs

theorem program_runYieldingCases (hw : w.Closed) {cases : List Case} {rs : List Ref}
    (hn : ∀ c ∈ cases, w.nodes (.switchCase c)) (hc : ∀ c ∈ cases, E.CoversCase c)
    (hrs : ∀ r ∈ rs, w.Tracks r) (ht : E.takes .yielded) :
    Program w E .idle (fun m => runYieldingCases (w.env m) m.walk rs cases)
      (fun rs => ∀ r ∈ rs, w.Tracks r) .idle := by
  induction cases with
  | nil => exact .pure nofun
  | cons c cases ih =>
    have ih := ih (fun d hd => hn d (List.mem_cons_of_mem c hd))
      fun d hd => hc d (List.mem_cons_of_mem c hd)
    refine .bind (program_runCase hw (hn c List.mem_cons_self) (hc c List.mem_cons_self) hrs)
      fun _ _ => .bind (program_takeAll ht nofun) fun ys hys =>
      .bind ih fun rest hrest => .pure fun r hr => ?_
    rcases List.mem_append.mp hr with hr | hr
    · exact (hys r hr).1
    · exact hrest r hr

theorem program_switchValue (hw : w.Closed) {span : Span} {selector : Option Expr}
    {cases : List Case} (hn : w.nodes (.expr (.switchExpr span selector cases))) :
    Program w (.ofTask (.expr (.switchExpr span selector cases))) .idle
      (fun m => switchValue (w.env m) m.walk selector cases) (fun _ => True) .busy := by
  have hselector : (Effects.ofTask (.expr (.switchExpr span selector cases))).CoversExpr selector :=
    Effects.coversExpr_child rfl fun x hx => by simp [hx]
  have hchild : ∀ c ∈ cases,
      Node.switchCase c ∈ (Node.expr (.switchExpr span selector cases)).children :=
    fun c hc => by simp [hc]
  have hcases : ∀ c ∈ cases,
      (Effects.ofTask (.expr (.switchExpr span selector cases))).CoversCase c :=
    fun c hc t ht => Effects.covers_grandchild rfl (hchild c hc) rfl ht
  have hnodes := fun c hc => hw.below _ _ hn (.single (hchild c hc))
  exact .promote (.bind (program_value hselector) fun rs hrs =>
    .bind (program_runYieldingCases hw hnodes hcases hrs ⟨rfl, span, selector, cases, .refl⟩)
      fun ys hys => program_push hys)

theorem program_runElements (hw : w.Closed) {type : Option ClassId} (ht : w.types type)
    {es : List (Option Expr)} (h : ∀ e ∈ es, E.CoversExpr e) :
    Program w E .idle (fun m => runElements (w.env m) m.walk type es)
      (fun rs => ∀ r ∈ rs, w.Tracks r) .idle := by
  induction es with
  | nil => exact .pure nofun
  | cons e es ih =>
    refine .bind (program_value (h e List.mem_cons_self)) fun rs hrs =>
      .bind (ih fun x hx => h x (List.mem_cons_of_mem e hx)) fun rest hrest => .pure fun r hr => ?_
    rcases List.mem_append.mp hr with hr | hr
    · obtain ⟨y, hy, rfl⟩ := List.mem_map.mp hr
      obtain ⟨x, hx, hxy⟩ := List.mem_filterMap.mp hy
      exact (hw.tracks_toIndirect (hrs x hx) hxy).withType ht
    · exact hrest r hr

theorem targets_of_localVar? {env : Env} {span : Span} {lhs rhs : Option Expr} {v : VarId}
    (h : localVar? env lhs = some v) : (Node.expr (.assign span lhs rhs)).Targets v := by
  unfold localVar? at h
  split at h
  · next inner name u hx =>
    split at h
    · cases h
      exact .assign hx
    · cases h
  · cases h

/-- The handler of every expression is a program. -/
theorem program_stepExpr (hw : w.Closed) (e : Expr) (hn : w.nodes (.expr e)) :
    Program w (.ofTask (.expr e)) .idle (fun m => stepExpr (w.env m) m.walk e)
      (fun _ => True) .busy := by
  cases e with
  | assign span lhs rhs =>
    have hrhs : (Effects.ofTask (.expr (.assign span lhs rhs))).CoversExpr rhs :=
      Effects.coversExpr_child rfl fun x hx => by simp [hx]
    refine .bind (program_evalDrop ?_) fun _ _ => ?_
    · exact Effects.coversExpr_child rfl fun x hx => by simp [hx]
    · cases hv : localVar? w.base lhs with
      | none =>
        refine (Program.ofBusy (.bind (program_evalDrop hrhs) fun _ _ =>
          program_dropResult)).of_eq fun m => ?_
        rw [show localVar? (w.env m) lhs = none from hv]
      | some v =>
        have htarget : (Node.expr (.assign span lhs rhs)).Targets v := targets_of_localVar? hv
        have hstore : Program w (.ofTask (.expr (.assign span lhs rhs))) .busy
            (fun m => relabelResult (w.env m) (·.asVar v)) (fun _ => True) .idle := by
          refine program_store ⟨_, .refl, .target htarget⟩ nofun ?_
          rintro _ ⟨⟩
          exact hw.target _ hn v htarget
        refine (Program.ofBusy (.bind (program_eval hrhs) fun _ _ => hstore)).of_eq fun m => ?_
        rw [show localVar? (w.env m) lhs = some v from hv]
  | assignOp span op lhs rhs =>
    refine Program.ofBusy (.bind (program_evalDrop ?_) fun _ _ => program_evalDrop ?_) <;>
      exact Effects.coversExpr_child rfl fun x hx => by simp [hx]
  | binary span op x y =>
    refine Program.ofBusy (.bind (program_evalDrop ?_) fun _ _ => program_evalDrop ?_) <;>
      exact Effects.coversExpr_child rfl fun x hx => by simp [hx]
  | call span callee args => exact program_call hw
  | cast span type x =>
    have hx : (Effects.ofTask (.expr (.cast span type x))).CoversExpr x :=
      Effects.coversExpr_child rfl fun x hx => by simp [hx]
    cases type with
    | none =>
      exact Program.ofBusy (.bind (program_evalDrop hx) fun _ _ => program_dropResult)
    | some c =>
      exact .bind (program_eval hx) fun _ _ =>
        program_retype (hw.named _ hn _ List.mem_cons_self)
  | conditional span cond yes no =>
    refine .bind (program_evalDrop ?_) fun _ _ => .bind (program_value ?_) fun a ha =>
      .bind (program_value ?_) fun b hb => .bind (program_push ha) fun _ _ => program_push hb <;>
      exact Effects.coversExpr_child rfl fun x hx => by simp [hx]
  | ident span name sym =>
    refine program_ident hw ?_
    rintro v rfl
    exact ⟨_, .refl, rfl⟩
  | index span x i elem =>
    refine .bind (program_value ?_) fun rs hrs => .bind (program_evalDrop ?_) fun _ _ => ?_
    · exact Effects.coversExpr_child rfl fun x hx => by simp [hx]
    · exact Effects.coversExpr_child rfl fun x hx => by simp [hx]
    · cases elem with
      | none => exact (Program.pure trivial).ofBusy
      | some c => exact program_push (hw.tracks_filterMap (hw.named _ hn _ List.mem_cons_self) hrs)
  | instanceOf span x type binding =>
    refine .bind (program_value ?_) fun rs hrs => ?_
    · exact Effects.coversExpr_child rfl fun x hx => by simp [hx]
    · cases binding with
      | none => exact (Program.pure trivial).ofBusy
      | some d =>
        have hchild : Node.ofVarDecl d ∈
            (Node.expr (.instanceOf span x type (some d))).children := by
          simp
        exact Program.ofBusy (program_bind hw (hw.below _ _ hn (.single hchild))
          (Effects.covers_child rfl hchild) hrs)
  | lambda span params body type => exact program_lambda hw (hw.named _ hn _ List.mem_cons_self)
  | literal span value => exact (Program.pure trivial).ofBusy
  | typeName span sym => exact (Program.pure trivial).ofBusy
  | memberRef span x name sym kind type =>
    have hcalls : Task.MakesCalls (.expr (.memberRef span x name sym kind type)) := trivial
    exact program_memberRef hw (hw.named _ hn _ List.mem_cons_self) covers_memberRef fun rs =>
      Effects.permits_ofTask hcalls
  | new span outer cls ctor args body => exact program_create hw hn
  | newArray span type dims elems =>
    refine .bind (program_evalDrops fun d hd => ?_) fun _ _ =>
      .bind (program_runElements hw (hw.named _ hn _ List.mem_cons_self) fun e he => ?_)
        fun rs hrs => program_push hrs
    · exact Effects.coversExpr_child rfl fun x hx => by
        simp [hx ▸ hd]
    · exact Effects.coversExpr_child rfl fun x hx => by
        simp [hx ▸ he]
  | paren span x =>
    exact program_eval (Effects.coversExpr_child rfl fun x hx => by simp [hx])
  | select span x name sym => exact program_select hw hn
  | switchExpr span selector cases => exact program_switchValue hw hn
  | unary span op x =>
    exact Program.ofBusy (program_evalDrop (Effects.coversExpr_child rfl fun x hx => by simp [hx]))
  | unknown span sort => exact .stop nofun (by simp) (.inr rfl)

end Expressions

/-! ### Statements -/

section Statements

variable {w : World} {E : Effects}

theorem Effects.coversStmt_child {t : Task} (ht : t.node.runsChildren = true) {s : Option Stmt}
    (h : ∀ x, s = some x → Node.stmt x ∈ t.node.children) : (Effects.ofTask t).CoversStmt s :=
  fun x hx => Effects.covers_child ht (h x hx)

theorem Effects.coversBlock_inside {t : Task} {b : Option Block}
    (h : ∀ x, b = some x → t.node.RunsBelow (.ofBlock x)) : (Effects.ofTask t).CoversBlock b := by
  rintro x hx _ hs y rfl
  exact Effects.covers_ofTask (.tail (h x hx) ⟨rfl, by
    simpa using hs⟩)

theorem program_declare (hw : w.Closed) {d : VarDecl} (hn : w.nodes (.ofVarDecl d)) :
    Program w (.ofTask (.stmt (.varDecl d))) .idle (fun m => declare (w.env m) m.walk d)
      (fun _ => True) .idle := by
  cases he : d.init with
  | none =>
    simp only [declare, he]
    exact .pure trivial
  | some e =>
    simp only [declare, he, World.env_table]
    cases hv : d.sym.filter fun v => (w.table.var v).isLocal with
    | none =>
      refine .run (t := .drop e) (Effects.covers_child rfl ?_)
      simp [he]
    | some v =>
      have hv := (Option.filter_eq_some_iff.mp hv).1
      refine .bind (.run (t := .expr e) (Effects.covers_child rfl ?_)) fun _ _ => ?_
      · simp [he]
      · refine program_store ⟨_, .refl, .target (.declare hv)⟩ nofun ?_
        rintro _ ⟨⟩
        exact hw.declared hn hv

/-! ### Iteration -/

theorem World.Closed.tracks_arrayElements (hw : w.Closed) {env : Env} (henv : env.table = w.table)
    {rs : List Ref} (hrs : ∀ r ∈ rs, w.Tracks r) : ∀ r ∈ arrayElements env rs, w.Tracks r := by
  intro r hr
  obtain ⟨x, hmem, hx⟩ := List.mem_filterMap.mp hr
  split at hx
  · split at hx
    · exact hw.tracks_project (henv ▸ hw.elem _) (hrs x hmem) hx
    · cases hx
  · cases hx

theorem World.receivers_iterables {env : Env} {rs : List Ref} (hrs : ∀ r ∈ rs, w.Tracks r) :
    w.Receivers (iterables env rs) :=
  World.receivers_asThis fun r hr => hrs r (List.mem_filter.mp hr).1

/-- The first call of a loop over values that are no arrays: it gives the iterators. -/
def iterate (env : Env) (walk : Walk) (site : Site) (it : Iteration) (receiver : List Ref) :
    Interp (List Ref) := do
  invoke env walk site (some it.iterator) [] receiver
  let rs ← takeResult env
  return rs.map (·.asThis)

/-- The other calls of the loop: they give the values. -/
def advance (env : Env) (walk : Walk) (site : Site) (it : Iteration) (iterators : List Ref) :
    Interp (List Ref) := do
  invoke env walk site (some it.hasNext) [] iterators
  dropResult
  invoke env walk site (some it.next) [] iterators
  takeResult env

/-- The first one of these calls, whose value is dropped. -/
def checkNext (env : Env) (walk : Walk) (site : Site) (it : Iteration) (iterators : List Ref) :
    Interp Unit := do
  invoke env walk site (some it.hasNext) [] iterators
  dropResult

/-- The second one, whose value is that of the iterators. -/
def takeNext (env : Env) (walk : Walk) (site : Site) (it : Iteration) (iterators : List Ref) :
    Interp (List Ref) := do
  invoke env walk site (some it.next) [] iterators
  takeResult env

theorem advance_eq (env : Env) (walk : Walk) (site : Site) (it : Iteration)
    (iterators : List Ref) :
    advance env walk site it iterators =
      checkNext env walk site it iterators >>= fun _ => takeNext env walk site it iterators := by
  simp only [advance, checkNext, takeNext, bind_assoc]

/-- The methods that iterate over the values that are no arrays. -/
def iterationOf? (env : Env) (rs : List Ref) : Option Iteration :=
  (iterables env rs).head?.bind fun r => iteration? env.table r.type

/-- What a loop does with the values it runs over. -/
def assignElements (walk : Walk) (d : Option VarDecl) (body : Option Stmt) (rs : List Ref) :
    Interp Unit := do
  match d.bind (·.sym) with
  | none => pure ()
  | some v => add (rs.map (·.asVar v))
  runStmt walk body

/-- What a pass of a for-each loop does with the iterators of the values that are no arrays. -/
def advanceOver (env : Env) (walk : Walk) (site : Site) (d : Option VarDecl) (body : Option Stmt)
    (rs : List Ref) (it : Iteration) (iterators : List Ref) : Interp Unit := do
  let values ← advance env walk site it iterators
  assignElements walk d body (arrayElements env rs ++ values)

/-- What a pass of a for-each loop does with the value it runs over. -/
def passOver (env : Env) (walk : Walk) (site : Site) (d : Option VarDecl) (body : Option Stmt)
    (rs : List Ref) : Interp Unit :=
  match iterationOf? env rs with
  | none => assignElements walk d body (arrayElements env rs)
  | some it =>
    iterate env walk site it (iterables env rs) >>= advanceOver env walk site d body rs it

theorem forEachPass_eq (env : Env) (walk : Walk) (d : Option VarDecl) (x : Option Expr)
    (body : Option Stmt) :
    forEachPass env walk d x body =
      value env walk x >>= passOver env walk (.ofExpr? x) d body := by
  refine congrArg (value env walk x >>= ·) (funext fun rs => ?_)
  change (elements env walk (.ofExpr? x) rs >>= assignElements walk d body) = _
  cases hit : iterationOf? env rs with
  | none =>
    unfold elements passOver
    dsimp only
    rw [show ((iterables env rs).head?.bind fun r => iteration? env.table r.type) = none from hit,
      hit]
    rfl
  | some it =>
    unfold elements passOver
    dsimp only
    rw [show ((iterables env rs).head?.bind fun r => iteration? env.table r.type) = some it from
      hit, hit]
    simp only [iterate, advanceOver, advance, bind_assoc, pure_bind]

theorem program_iterate (hw : w.Closed) {site : Site} (it : Iteration) {receiver : List Ref}
    (hr : w.Receivers receiver) (hp : E.Permits w.base site.pos (some it.iterator) [] receiver) :
    Program w E .idle (fun m => iterate (w.env m) m.walk site it receiver) w.Receivers .idle :=
  .bind (program_invoke hw nofun hr hp) fun _ _ => .bind program_takeResult fun _ hrs =>
    .pure (World.receivers_asThis hrs)

theorem program_advance (hw : w.Closed) {site : Site} (it : Iteration) {iterators : List Ref}
    (hr : w.Receivers iterators)
    (hp : ∀ mth, mth = it.hasNext ∨ mth = it.next →
      E.Permits w.base site.pos (some mth) [] iterators) :
    Program w E .idle (fun m => advance (w.env m) m.walk site it iterators)
      (fun rs => ∀ r ∈ rs, w.Tracks r) .idle :=
  .bind (program_invoke hw nofun hr (hp _ (.inl rfl))) fun _ _ =>
    .bind program_dropResult fun _ _ =>
    .bind (program_invoke hw nofun hr (hp _ (.inr rfl))) fun _ _ => program_takeResult

/-- The effects cover what a for-each loop runs for each of its values. -/
structure Effects.CoversLoop (E : Effects) (w : World) (d : Option VarDecl) (body : Option Stmt) :
    Prop where
  var : ∀ y, d = some y → w.nodes (.ofVarDecl y) ∧ E.Covers (.stmt (.varDecl y))
  body : E.CoversStmt body

theorem program_assignElements (hw : w.Closed) {d : Option VarDecl} {body : Option Stmt}
    (h : E.CoversLoop w d body) {rs : List Ref} (hrs : ∀ r ∈ rs, w.Tracks r) :
    Program w E .idle (fun m => assignElements m.walk d body rs) (fun _ => True) .idle := by
  unfold assignElements
  cases hv : d.bind (·.sym) with
  | none => exact program_runStmt h.body
  | some v =>
    refine .bind (program_add fun r hr => ?_) fun _ _ => program_runStmt h.body
    obtain ⟨y, hy, rfl⟩ := List.mem_map.mp hr
    obtain ⟨decl, hdecl, hsym⟩ := Option.bind_eq_some_iff.mp hv
    have hd := h.var decl hdecl
    exact ⟨(hrs y hy).asVar (hw.declared hd.1 hsym), hd.2.gives_declared hsym, nofun⟩

theorem program_advanceOver (hw : w.Closed) {site : Site} {d : Option VarDecl} {body : Option Stmt}
    (h : E.CoversLoop w d body) {rs : List Ref} (hrs : ∀ r ∈ rs, w.Tracks r) (it : Iteration)
    {iterators : List Ref} (hr : w.Receivers iterators)
    (hp : ∀ mth, mth = it.hasNext ∨ mth = it.next →
      E.Permits w.base site.pos (some mth) [] iterators) :
    Program w E .idle (fun m => advanceOver (w.env m) m.walk site d body rs it iterators)
      (fun _ => True) .idle := by
  have helems : ∀ r ∈ arrayElements w.base rs, w.Tracks r := hw.tracks_arrayElements rfl hrs
  refine .bind (program_advance hw it hr hp) fun values hvalues => ?_
  have hall : ∀ r ∈ arrayElements w.base rs ++ values, w.Tracks r := by
    intro r hr
    rcases List.mem_append.mp hr with hr | hr
    · exact helems r hr
    · exact hvalues r hr
  exact program_assignElements hw h hall

theorem program_passOver (hw : w.Closed) {site : Site} {d : Option VarDecl} {body : Option Stmt}
    (h : E.CoversLoop w d body) (hp : ∀ m rs, E.Permits w.base site.pos m [] rs) {rs : List Ref}
    (hrs : ∀ r ∈ rs, w.Tracks r) :
    Program w E .idle (fun m => passOver (w.env m) m.walk site d body rs) (fun _ => True)
      .idle := by
  -- how the elements are reached does not depend on the mode
  cases hit : iterationOf? w.base rs with
  | none =>
    have helems : ∀ r ∈ arrayElements w.base rs, w.Tracks r := hw.tracks_arrayElements rfl hrs
    refine (program_assignElements hw h helems).of_eq fun m => ?_
    rw [passOver, show iterationOf? (w.env m) rs = none from hit]
    rfl
  | some it =>
    have hr : w.Receivers (iterables w.base rs) := World.receivers_iterables hrs
    refine ((program_iterate hw it hr (hp _ _)).bind fun its hits =>
      program_advanceOver hw h hrs it hits fun _ _ => hp _ _).of_eq fun m => ?_
    rw [passOver, show iterationOf? (w.env m) rs = some it from hit]
    rfl

theorem program_forEachPass (hw : w.Closed) {d : Option VarDecl} {x : Option Expr}
    {body : Option Stmt} (hx : E.CoversExpr x) (h : E.CoversLoop w d body)
    (hp : ∀ m rs, E.Permits w.base (Site.ofExpr? x).pos m [] rs) :
    Program w E .idle (fun m => forEachPass (w.env m) m.walk d x body) (fun _ => True) .idle := by
  refine ((program_value hx).bind fun rs hrs => ?_).of_eq fun m => forEachPass_eq ..
  exact program_passOver hw h hp hrs

theorem covers_forEach {span : Span} {d : Option VarDecl} {x : Option Expr} {body : Option Stmt} :
    (Effects.ofTask (.loop (.forEach span d x body))).CoversExpr x ∧
      (w.Closed → w.nodes (.stmt (.forEach span d x body)) →
        (Effects.ofTask (.loop (.forEach span d x body))).CoversLoop w d body) := by
  refine ⟨Effects.coversExpr_child rfl fun x hx => by simp [hx], fun hw hn => ⟨fun y hy => ?_,
    Effects.coversStmt_child rfl fun x hx => by simp [hx]⟩⟩
  have hchild : Node.ofVarDecl y ∈ (Node.stmt (.forEach span d x body)).children := by
    simp [hy]
  exact ⟨hw.below _ _ hn (.single hchild), Effects.covers_child rfl hchild⟩

/-- One pass of a loop is a program. -/
theorem program_loopPass (hw : w.Closed) (s : Stmt) (hn : w.nodes (.stmt s)) :
    Program w (.ofTask (.loop s)) .idle (fun m => loopPass (w.env m) m.walk s)
      (fun _ => True) .idle := by
  cases s with
  | doLoop span body cond =>
    refine .bind (program_runStmt ?_) fun _ _ => program_evalDrop ?_
    · exact Effects.coversStmt_child rfl fun x hx => by simp [hx]
    · exact Effects.coversExpr_child rfl fun x hx => by simp [hx]
  | forLoop span init cond post body =>
    refine .bind (program_evalDrop ?_) fun _ _ => .bind (program_runStmt ?_) fun _ _ =>
      program_runStmts fun s hs => ?_
    · exact Effects.coversExpr_child rfl fun x hx => by simp [hx]
    · exact Effects.coversStmt_child rfl fun x hx => by simp [hx]
    · exact Effects.coversStmt_child rfl fun x hx => by
        simp [hx ▸ hs]
  | forEach span var x body =>
    have hcalls : Task.MakesCalls (.loop (.forEach span var x body)) := trivial
    obtain ⟨hx, hloop⟩ := @covers_forEach w span var x body
    exact program_forEachPass hw hx (hloop hw hn) fun m rs => Effects.permits_ofTask hcalls
  | whileLoop span cond body =>
    refine .bind (program_evalDrop ?_) fun _ _ => program_runStmt ?_
    · exact Effects.coversExpr_child rfl fun x hx => by simp [hx]
    · exact Effects.coversStmt_child rfl fun x hx => by simp [hx]
  | _ => exact .pure trivial

/-- The effect of every statement is a program. -/
theorem program_stmtEffect (hw : w.Closed) (s : Stmt) (hn : w.nodes (.stmt s)) :
    Program w (.ofTask (.stmt s)) .idle (fun m => stmtEffect (w.env m) m.walk s)
      (fun _ => True) .idle := by
  cases s with
  | assertStmt span cond detail =>
    refine .bind (program_evalDrop ?_) fun _ _ => program_evalDrop ?_ <;>
      exact Effects.coversExpr_child rfl fun x hx => by simp [hx]
  | block b =>
    refine program_runBlock (b := some b) ?_
    rintro _ ⟨⟩ _ hs x rfl
    exact Effects.covers_child rfl (by simpa using hs)
  | branch span kind label => exact .pure trivial
  | empty span => exact .pure trivial
  | classDecl d => exact .pure trivial
  | doLoop span body cond => exact .run Effects.covers_loop
  | exprStmt span x =>
    exact program_evalDrop (Effects.coversExpr_child rfl fun x hx => by simp [hx])
  | forLoop span init cond post body =>
    refine .scope (.bind (program_runStmts fun s hs => ?_) fun _ _ => .run Effects.covers_loop)
    exact Effects.coversStmt_child rfl fun x hx => by
      simp [hx ▸ hs]
  | forEach span var x body => exact .run Effects.covers_loop
  | ifElse span cond yes no =>
    refine .bind (program_evalDrop ?_) fun _ _ => .bind (program_runStmt ?_) fun _ _ =>
      program_runStmt ?_
    · exact Effects.coversExpr_child rfl fun x hx => by simp [hx]
    · exact Effects.coversStmt_child rfl fun x hx => by simp [hx]
    · exact Effects.coversStmt_child rfl fun x hx => by simp [hx]
  | labeled span label body =>
    exact program_runStmt (Effects.coversStmt_child rfl fun x hx => by simp [hx])
  | returnStmt span result =>
    cases result with
    | none => exact .pure trivial
    | some e =>
      refine .bind (.run (Effects.covers_child rfl ?_)) fun _ _ =>
        program_store ⟨_, .refl, .returned span e⟩ nofun nofun
      simp
  | switch span selector cases =>
    have hchild : ∀ c ∈ cases,
        Node.switchCase c ∈ (Node.stmt (.switch span selector cases)).children :=
      fun c hc => by simp [hc]
    refine .scope (.bind (program_value ?_) fun rs hrs => program_forM fun c hc =>
      program_runCase hw (hw.below _ _ hn (.single (hchild c hc)))
        (fun t ht => Effects.covers_grandchild rfl (hchild c hc) rfl ht) hrs)
    exact Effects.coversExpr_child rfl fun x hx => by simp [hx]
  | synchronized span lock body =>
    refine .bind (program_evalDrop ?_) fun _ _ => program_runBlock ?_
    · exact Effects.coversExpr_child rfl fun x hx => by simp [hx]
    · exact Effects.coversBlock_inside fun x hx => .single ⟨rfl, by
        simp [hx]⟩
  | throwStmt span x =>
    refine .bind (program_eval ?_) fun _ _ => program_dropOrLeak (.inr ⟨span, x, rfl, rfl⟩)
    exact Effects.coversExpr_child rfl fun x hx => by simp [hx]
  | tryCatch span resources body catches finalizer =>
    refine .bind (.scope (.bind (program_runStmts fun s hs => ?_) fun _ _ => program_runBlock ?_))
      fun _ _ => .bind (program_forM fun c hc => program_runBlock ?_) fun _ _ => program_runBlock ?_
    · exact Effects.coversStmt_child rfl fun x hx => by
        simp [hx ▸ hs]
    · exact Effects.coversBlock_inside fun x hx => .single ⟨rfl, by
        simp [hx]⟩
    · exact Effects.coversBlock_inside fun x hx => .tail (b := .catchClause c)
        (.single ⟨rfl, by simp [hc]⟩)
        ⟨rfl, by simp [hx]⟩
    · exact Effects.coversBlock_inside fun x hx => .single ⟨rfl, by
        simp [hx]⟩
  | varDecl d => exact program_declare hw hn
  | whileLoop span cond body => exact .run Effects.covers_loop
  | yieldStmt span value =>
    refine .bind (program_eval ?_) fun _ _ =>
      program_store ⟨_, .refl, .yielded span value⟩ nofun nofun
    exact Effects.coversExpr_child rfl fun x hx => by simp [hx]
  | unknown span sort => exact .stop nofun (by simp) (.inr rfl)

end Statements

variable {w : World}

/-- The handler of every expression and statement is a program with the effects of its node. -/
theorem program_step (hw : w.Closed) {task : Task} (ht : ∀ s, task ≠ .loop s)
    (hn : w.nodes task.node) :
    Program w (.ofTask task) .idle (fun m => step (w.env m) m.walk m.passes task)
      (fun _ => True) task.result := by
  cases task with
  | expr e => exact program_stepExpr hw e hn
  | drop e =>
    rw [Effects.ofTask_drop]
    exact .bind (program_stepExpr hw e hn) fun _ _ => program_dropResult
  | stmt s => exact .bind (program_stmtEffect hw s hn) fun _ _ => .check
  | loop s => exact absurd rfl (ht s)

end Interp

end EarlyEscape
