import EarlyEscape.Proofs.Interp.Comparison

/-!
# Calls that are left out

The interpretation with a limit on the nesting of calls follows the one that leaves out calls of
running declarations: as long as the first one finds no leak, the second one finds none and comes to
the same results.  For this, no call whose value is used, and that one of the two leaves out, may
give references in the other one.  What calls whose value is dropped would give does not matter.

## Main definitions

* `Interp.Effects.callFree` : the effects of code that calls no methods.
* `Interp.Comparison.BothUse` : both interpretations use the value of a call.

## Main results

* `Interp.Program.follows` : programs that call no methods follow if the pieces inside do.
* `Interp.Comparison.invoke_follows` : a call follows, up to its value if that is not used.
* `Interp.Comparison.step_follows` : a piece follows if the pieces inside do.
* `Interp.exec_follows` : all pieces of a program follow.
-/

namespace EarlyEscape

namespace Interp

/-! ### Effects without calls -/

namespace Effects

variable {w : World}

/-- The effects of code that runs nodes of the world and calls no methods. -/
def callFree (w : World) : Effects :=
  { anything w with leaks := fun _ => True, enters := fun _ c => ∀ e body, c ≠ .method e body }

/-- The effects of code that runs nodes of the world and calls anything. -/
def anyCall (w : World) : Effects := { callFree w with enters := fun _ _ => True }

theorem within_callFree : (callFree w).Within w := ⟨fun _ => id, fun _ => id⟩

theorem within_anyCall : (anyCall w).Within w := ⟨fun _ => id, fun _ => id⟩

theorem not_enters_callFree (pos : Option Pos) (e : Catalog.Entry) (body : Block) :
    ¬(callFree w).enters pos (.method e body) :=
  fun h => h e body rfl

theorem coversExpr_callFree (hw : w.Closed) {n : Node} (hn : w.nodes n) {e : Option Expr}
    (h : ∀ x, e = some x → Node.expr x ∈ n.children) : (callFree w).CoversExpr e := by
  intro x hx t ht
  refine covers_anything ?_
  rw [ht]
  exact hw.below _ _ hn (.single (h x hx))

theorem permits_anyCall {env : Env} {pos : Option Pos} {mth : Option MethodId}
    {args : List (Option Expr)} {receiver : List Ref} :
    (anyCall w).Permits env pos mth args receiver :=
  ⟨fun _ _ => trivial, fun _ _ _ => trivial, fun _ _ _ => trivial⟩

end Effects

/-- Every call is a program. -/
theorem program_anyInvoke {w : World} (hw : w.Closed) {site : Site} {mth : Option MethodId}
    {args : List (Option Expr)} {receiver : List Ref}
    (h : ∀ a ∈ args, (Effects.callFree w).CoversExpr a) (hr : w.Receivers receiver) :
    Program w (.anyCall w) .idle (fun m => invoke (w.env m) m.walk site mth args receiver)
      (fun _ => True) .busy :=
  program_invoke hw h hr Effects.permits_anyCall

open Comparison
open Effects (within_callFree within_anyCall not_enters_callFree coversExpr_callFree
  permits_anyCall)

/-! ### Programs -/

section Programs

variable {C : Comparison} {n₀ : Nat} {α : Type} {E : Effects} {p q : Phase}

/-- A program that enters no methods follows if the pieces inside do. -/
theorem Program.follows (hC : C.Fair)
    (hwalk : ∀ t, C.world.nodes t.node → C.Follows n₀ fun m => m.walk t) {x : Mode → Interp α}
    {V : α → Prop} (h : Program C.world E p x V q) (hE : E.Within C.world)
    (hmethods : ∀ pos e body, ¬E.enters pos (.method e body)) : C.Follows n₀ x := by
  induction h with
  | pure =>
    rintro s b _ hmatch a s' ⟨⟨⟩, -⟩ _ n a' b' ⟨⟨⟩, -⟩
    exact .of_eq hmatch.pending hmatch.depth hmatch.refs
  | bind hx hf ihx ihf =>
    intro s b hs hmatch
    exact followsFrom_bind hC.closed hx hf hE hE hs hmatch (ihx hE hmethods s b hs hmatch)
      fun n a s₁ b₁ _ _ ha hs₁ hmatch₁ => ihf a ha hE hmethods s₁ b₁ hs₁ hmatch₁
  | weaken _ _ _ _ ih => exact ih hE hmethods
  | run hcover => exact hwalk _ (hE.now _ hcover.1)
  | stop => exact fun _ _ _ _ _ _ hrun => nomatch hrun.ends
  | ask _ ih =>
    intro s b hs hmatch a s' hrun hp n a' b' hrun'
    have hclass := hmatch.methodClass
    refine ih s.methodClass hE hmethods s b hs hmatch a s' ⟨hrun.ends, hrun.through⟩ hp n a' b' ?_
    rw [← hclass]
    exact ⟨hrun'.ends, hrun'.through⟩
  | basic hf =>
    intro s b _ hmatch a s' hrun _ n a' b' hrun'
    obtain ⟨-, rfl, rfl⟩ := onRefs_eq_ok.mp hrun.ends
    obtain ⟨-, rfl, rfl⟩ := onRefs_eq_ok.mp hrun'.ends
    rw [hmatch.refs, hmatch.depth]
    exact .of_eq hmatch.pending rfl rfl
  | leakAt =>
    intro s b _ hmatch a s' hrun hp
    rcases leakAt_eq_ok.mp hrun.ends with ⟨hne, rfl⟩ | ⟨-, pos, -, rfl⟩
    · exact absurd hp hne
    · cases hp
  | scope _ ih =>
    intro s b hs hmatch
    exact (ih hE hmethods { s with depth := s.depth + 1 } _ hs hmatch.deeper).scope
  | promote _ ih =>
    intro s b hs hmatch
    exact (ih hE hmethods { s with depth := s.depth + 1 } _ hs hmatch.deeper).promote
  | call _ _ hsite => exact absurd hsite (hmethods _ _ _)
  | visit hc _ hin hseed _ _ ih =>
    intro s b _ hmatch _ s' hrun hp n _ b' hrun'
    obtain ⟨_, s₁, hrun, ⟨⟩⟩ := hrun.left
    obtain ⟨_, b₁, hrun', ⟨⟩⟩ := hrun'.left
    obtain ⟨⟨hpending, hdepth, hrefs⟩, -⟩ := enter_follows hC.oneCode hc hseed
      (ih (Effects.within_inside hin) fun _ _ _ => id) hmatch hrun hp hrun'
    exact .of_eq hpending hdepth hrefs
  | deferred _ _ _ ih =>
    intro s b hs hmatch
    exact (ih hE.deferred hmethods s.deferring _ hs hmatch.deferring).later hmatch.refs
  | check =>
    intro s b _ hmatch _ s' hrun _ n _ b' hrun'
    obtain ⟨rfl, -⟩ := checkLeftovers_eq_ok.mp hrun.ends
    obtain ⟨rfl, -⟩ := checkLeftovers_eq_ok.mp hrun'.ends
    exact .of_eq hmatch.pending hmatch.depth hmatch.refs

end Programs

namespace Comparison

/-! ### Calls of methods -/

section Methods

variable {C : Comparison} {n₀ : Nat} {used : Prop} {s b : State}

/-- References are handed on as a result in the same way. -/
theorem agree_push {s' b' : State} {rs rs' : List Ref}
    (h : b'.pending = none ∧ b'.depth = s'.depth ∧ b'.refs = s'.refs) (hvalue : used → rs' = rs) :
    Agree used () { s' with refs := s'.refs.insertAll (rs.map (·.asExpr s'.depth)) }
      () { b' with refs := b'.refs.insertAll (rs'.map (·.asExpr b'.depth)) } := by
  obtain ⟨hpending, hdepth, hrefs⟩ := h
  have hlost (refs : RefSet) (rs : List Ref) (d : Int) :
      (refs.insertAll (rs.map (·.asExpr d))).discardExprs d = refs.discardExprs d := by
    refine RefSet.discardExprs_insertAll fun r hr => ?_
    obtain ⟨x, -, rfl⟩ := List.mem_map.mp hr
    rfl
  refine ⟨hpending, hdepth, ?_, fun hu => ⟨rfl, ?_⟩⟩
  · dsimp only
    rw [hlost, hlost, hrefs, hdepth]
  · dsimp only
    rw [hvalue hu, hrefs, hdepth]

/-- A method that is called follows, up to its value if that is not used.  A call that one
interpretation leaves out is harmless if it gives no references in the other one. -/
theorem method_follows (hone : C.world.OneCode) {c : Callee} (hc : Code C.world c)
    {seed : RefSet} (hseed : ∀ r ∈ seed, C.world.Tracks r ∧ IsSeed r)
    (hx : C.Follows n₀ (c.program C.world)) (hmatch : C.Matches s b) {site : Option Pos}
    (hskipped : used → isCut C.realEnv s c.decl seed = true → ∀ n rs b₁,
      enter (C.world.env (C.boundedMode n)) site c.decl c.cls seed
        (c.program C.world (C.boundedMode n)) b = .ok rs b₁ → rs = [])
    (hbeyond : used → isCut C.boundedEnv b c.decl seed = true → ∀ rs s₁,
      enter (C.world.env (C.realMode n₀)) site c.decl c.cls seed
        (c.program C.world (C.realMode n₀)) s = .ok rs s₁ → rs = []) :
    C.FollowsFrom n₀ used
      (fun m => enter (C.world.env m) site c.decl c.cls seed (c.program C.world m) >>= push)
      s b := by
  rintro _ s' hrun hp n _ b' hrun'
  obtain ⟨rs, s₁, hcall, ⟨⟩⟩ := hrun.left
  obtain ⟨rs', b₁, hcall', ⟨⟩⟩ := hrun'.left
  obtain ⟨hends, hvalues⟩ := enter_follows hone hc hseed hx hmatch hcall hp hcall'
  refine agree_push hends fun hu => ?_
  rcases hvalues with h | ⟨hcut, hne⟩ | ⟨hcut, hne⟩
  · exact h
  · exact absurd (hskipped hu hcut n rs' b₁ hcall'.ends) hne
  · exact absurd (hbeyond hu hcut rs s₁ hcall.ends) hne

/-- Both interpretations come to the call, from pieces that they come to, and use its value. -/
def BothUse (C : Comparison) (pos : Option Pos) (mth : Option MethodId) (args : List (Option Expr))
    (receiver : List Ref) (s b : State) : Prop :=
  ∀ p, pos = some p → ∃ t s₀ b₀, (C.real t s₀ ∧ C.bounded t b₀) ∧
    UsesCall C.realEnv t s₀ p mth args receiver s ∧ UsesCall C.boundedEnv t b₀ p mth args receiver b

/-- A call with a value is that of code that is entered, from a position. -/
theorem exists_site_of_enter {env : Env} {site : Option Pos} {decl : DeclId} {cls : Option ClassId}
    {seed : RefSet} {x : Interp Unit} {s s' : State} {rs : List Ref}
    (h : enter env site decl cls seed x s = .ok rs s') (hne : rs ≠ []) :
    ∃ pos, site = some pos := by
  rcases enter_eq_ok.mp h with ⟨-, rfl, -⟩ | ⟨pos, -, hpos, -⟩
  · exact absurd rfl hne
  · exact ⟨pos, hpos⟩

/-- A call of known code follows, up to its value if that is not used. -/
theorem invokeKnown_follows (hC : C.Fair)
    (hwalk : ∀ t, C.world.nodes t.node → C.Follows n₀ fun m => m.walk t) {site : Site}
    {mth : Option MethodId} {args : List (Option Expr)} {receiver : List Ref} {e : Catalog.Entry}
    {body : Block} (h : ∀ a ∈ args, (Effects.callFree C.world).CoversExpr a)
    (hr : C.world.Receivers receiver) (hknown : Known C.world.base mth receiver e body)
    (hs : C.world.Tracked s) (hmatch : C.Matches s b)
    (hused : used → C.BothUse site.pos mth args receiver s b) :
    C.FollowsFrom n₀ used
      (fun m => invokeKnown (C.world.env m) m.walk site args receiver e body) s b := by
  have hw := hC.closed
  obtain ⟨mth', he⟩ := exists_mem_of_resolve? hknown.resolved
  have hc : Code C.world (.method e body) := .method he hknown.body
  have hparams : ∀ d ∈ e.decl.params, C.world.nodes (.ofVarDecl d) := fun d hd =>
    hw.below _ _ (hw.entry mth' e he).2 (.single (by simp [Node.children, hd]))
  have hargs := program_bindArgs hw (P := IsSeed) (fun _ _ => .inr rfl) h e.decl.params
    (.ofList receiver) hparams fun r hmem => by
      have := hr r (RefSet.mem_ofList.mp hmem)
      exact ⟨this.1, .inl this.2⟩
  have hcode : C.Follows n₀ ((Callee.method e body).program C.world) :=
    hc.program.follows hC hwalk (Effects.within_inside fun n => hc.nodes hw) fun _ _ _ => id
  refine (followsFrom_bind hw hargs (fun seed hseed =>
      (program_enterSeed hw he hknown.body trivial hseed).bind fun rs hrs => program_push hrs)
    within_callFree within_anyCall hs hmatch
    (hargs.follows hC hwalk within_callFree not_enters_callFree s b hs hmatch)
    fun n seed s₁ b₁ hx₁ hx₂ hseed hs₁ hmatch₁ => ?_).of_eq fun m => invokeKnown_eq ..
  cases hempty : seed.isEmpty with
  | true =>
    refine FollowsFrom.of_eq (y := fun _ => push []) ?_ fun m => ?_
    · rintro _ s' ⟨⟨⟩, -⟩ hp n _ b' ⟨⟨⟩, -⟩
      exact agree_push ⟨hmatch₁.pending, hmatch₁.depth, hmatch₁.refs⟩ fun _ => rfl
    · rw [enterSeed, if_pos hempty]
      rfl
  | false =>
    have huses (hu : used) (pos : Pos) (hpos : site.pos = some pos) :
        ∃ t s₀ b₀, (C.real t s₀ ∧ C.bounded t b₀) ∧ UsesCode C.realEnv t s₀ pos e body seed s₁ ∧
          UsesCode C.boundedEnv t b₀ pos e body seed b₁ := by
      obtain ⟨t, s₀, b₀, hpieces, huse, huse'⟩ := hused hu pos hpos
      exact ⟨t, s₀, b₀, hpieces, ⟨mth, args, receiver, s, n₀, huse, { hknown with }, hx₁, hempty⟩,
        mth, args, receiver, b, n, huse', { hknown with }, hx₂, hempty⟩
    have hcall : C.FollowsFrom n₀ used (fun m => enter (C.world.env m) site.pos e.decl.id e.cls.sym
        seed ((Callee.method e body).program C.world m) >>= push) s₁ b₁ := by
      refine method_follows hC.oneCode hc hseed hcode hmatch₁ (fun hu hcut k rs b₂ hrun => ?_)
        fun hu hcut rs s₂ hrun => ?_
      · by_contra hne
        obtain ⟨pos, hpos⟩ := exists_site_of_enter hrun hne
        obtain ⟨t, s₀, b₀, ⟨hreal, hbounded⟩, huse, huse'⟩ := huses hu pos hpos
        exact hC.skipped e.decl.id seed ⟨t, s₀, pos, e, body, s₁, hreal, huse, rfl, hcut⟩
          ⟨t, b₀, pos, e, body, b₁, k, rs, b₂, hbounded, huse', rfl, hpos ▸ hrun, hne⟩
      · by_contra hne
        obtain ⟨pos, hpos⟩ := exists_site_of_enter hrun hne
        obtain ⟨t, s₀, b₀, ⟨hreal, hbounded⟩, huse, huse'⟩ := huses hu pos hpos
        exact hC.beyond e.decl.id seed ⟨t, b₀, pos, e, body, b₁, hbounded, huse', rfl, hcut⟩
          ⟨t, s₀, pos, e, body, s₁, n₀, rs, s₂, hreal, huse, rfl, hpos ▸ hrun, hne⟩
    refine hcall.of_eq fun m => ?_
    rw [enterSeed, if_neg (Bool.eq_false_iff.mp hempty)]
    rfl

/-- A call follows, up to its value if that is not used. -/
theorem invoke_follows (hC : C.Fair)
    (hwalk : ∀ t, C.world.nodes t.node → C.Follows n₀ fun m => m.walk t) {site : Site}
    {mth : Option MethodId} {args : List (Option Expr)} {receiver : List Ref}
    (h : ∀ a ∈ args, (Effects.callFree C.world).CoversExpr a) (hr : C.world.Receivers receiver)
    (hs : C.world.Tracked s) (hmatch : C.Matches s b)
    (hused : used → C.BothUse site.pos mth args receiver s b) :
    C.FollowsFrom n₀ used (fun m => invoke (C.world.env m) m.walk site mth args receiver) s b := by
  by_cases hknown : ∃ e body, Known C.world.base mth receiver e body
  · obtain ⟨e, body, hknown⟩ := hknown
    refine (invokeKnown_follows hC hwalk h hr hknown hs hmatch hused).of_eq fun m => ?_
    obtain ⟨hexempt, hresolved, hinvokable, hbody⟩ := hknown
    have hexempt : mth.any (isExempt (C.world.env m)) = false := hexempt
    have hresolved : resolve? (C.world.env m) mth receiver = .ok (some e) := hresolved
    simp only [invoke, hexempt, hresolved, hinvokable, hbody, Bool.false_eq_true, if_false]
  · -- nothing else that a call does calls a method
    have hp : (Effects.callFree C.world).Permits C.world.base site.pos mth args receiver :=
      ⟨fun _ _ => trivial, fun _ _ _ => trivial, fun e body hk => absurd ⟨e, body, hk⟩ hknown⟩
    exact ((program_invoke hC.closed h hr hp).follows hC hwalk within_callFree not_enters_callFree
      s b hs hmatch).mono fun _ => trivial

/-- A call whose value is dropped follows. -/
theorem invoke_drop_follows (hC : C.Fair)
    (hwalk : ∀ t, C.world.nodes t.node → C.Follows n₀ fun m => m.walk t) {site : Site}
    {mth : Option MethodId} {args : List (Option Expr)} {receiver : List Ref}
    (h : ∀ a ∈ args, (Effects.callFree C.world).CoversExpr a) (hr : C.world.Receivers receiver)
    (hs : C.world.Tracked s) (hmatch : C.Matches s b) :
    C.FollowsFrom n₀ True (fun m =>
      invoke (C.world.env m) m.walk site mth args receiver >>= fun _ => dropResult) s b := by
  have hcall : C.FollowsFrom n₀ False
      (fun m => invoke (C.world.env m) m.walk site mth args receiver) s b :=
    invoke_follows hC hwalk h hr hs hmatch False.elim
  exact hcall.drop

/-! ### Pieces that call methods -/

section Pieces

variable (hC : C.Fair) (hwalk : ∀ t, C.world.nodes t.node → C.Follows n₀ fun m => m.walk t)

include hC hwalk

/-- Code that calls no methods follows. -/
theorem follows_of_callFree {α : Type} {x : Mode → Interp α} {V : α → Prop} {p q : Phase}
    (h : Program C.world (.callFree C.world) p x V q) : C.Follows n₀ x :=
  h.follows hC hwalk within_callFree not_enters_callFree

theorem call_follows {span : Span} {callee : Option Expr} {args : List (Option Expr)}
    (hn : C.world.nodes (.expr (.call span callee args))) (hs : C.world.Tracked s)
    (hmatch : C.Matches s b)
    (hused : used → C.real (.expr (.call span callee args)) s ∧
      C.bounded (.expr (.call span callee args)) b) :
    C.FollowsFrom n₀ used
      (fun m => call (C.world.env m) m.walk (.ofExpr? (some (.call span callee args))) callee args)
      s b := by
  have hw := hC.closed
  have hcallee : (Effects.callFree C.world).CoversExpr callee :=
    coversExpr_callFree hw hn fun x hx => by simp [Node.children, Node.exprChildren, hx]
  have hargs : ∀ a ∈ args, (Effects.callFree C.world).CoversExpr a := fun a ha =>
    coversExpr_callFree hw hn fun x hx => by simp [Node.children, Node.exprChildren, hx ▸ ha]
  cases hsuper : isSuperCall C.world.base callee with
  | true =>
    have hdrops := follows_of_callFree hC hwalk (program_evalDrops hargs) s b hs hmatch
    refine (hdrops.mono fun _ => trivial).of_eq fun m => ?_
    rw [call, if_pos (show isSuperCall (C.world.env m) callee = true from hsuper)]
  | false =>
    have hreceivers := program_callReceivers (w := C.world) hcallee
    refine (followsFrom_bind hw hreceivers (fun rs hrs => program_anyInvoke hw hargs hrs)
      within_callFree within_anyCall hs hmatch
      (follows_of_callFree hC hwalk hreceivers s b hs hmatch)
      fun n rs s₁ b₁ hx₁ hx₂ hrs hs₁ hmatch₁ => ?_).of_eq fun m => call_eq hsuper
    refine invoke_follows hC hwalk hargs hrs hs₁ hmatch₁ ?_
    rintro hu _ ⟨⟩
    exact ⟨_, s, b, hused hu, .call hsuper hx₁, .call hsuper hx₂⟩

theorem create_follows {span : Span} {outer : Option Expr} {cls : Option ClassId}
    {ctor : Option MethodId} {args : List (Option Expr)} {body : Option ClassDecl}
    (hn : C.world.nodes (.expr (.new span outer cls ctor args body))) (hs : C.world.Tracked s)
    (hmatch : C.Matches s b)
    (hused : used → C.real (.expr (.new span outer cls ctor args body)) s ∧
      C.bounded (.expr (.new span outer cls ctor args body)) b) :
    C.FollowsFrom n₀ used
      (fun m => create (C.world.env m) m.walk (.ofExpr? (some (.new span outer cls ctor args body)))
        outer cls ctor args body) s b := by
  have hw := hC.closed
  have houter : (Effects.callFree C.world).CoversExpr outer :=
    coversExpr_callFree hw hn fun x hx => by simp [Node.children, Node.exprChildren, hx]
  have hargs : ∀ a ∈ args, (Effects.callFree C.world).CoversExpr a := fun a ha =>
    coversExpr_callFree hw hn fun x hx => by simp [Node.children, Node.exprChildren, hx ▸ ha]
  have hreceivers := program_newReceivers hw (hw.named _ hn _ List.mem_cons_self) houter
  have hclass {pos : Option Pos} {d : ClassDecl} {cls : Option ClassId} :
      (Effects.callFree C.world).PermitsClass C.world.table pos d cls :=
    ⟨fun _ => trivial, nofun, nofun⟩
  refine (followsFrom_bind hw hreceivers
    (fun rs hrs => program_createAt (E := .anyCall C.world) hw hn hargs hrs
      ⟨permits_anyCall, fun d _ => ⟨fun _ => trivial, trivial, fun _ _ _ _ _ _ => trivial⟩⟩)
    within_callFree within_anyCall hs hmatch (follows_of_callFree hC hwalk hreceivers s b hs hmatch)
    fun n rs s₁ b₁ hx₁ hx₂ hrs hs₁ hmatch₁ => ?_).of_eq fun m => create_eq ..
  cases body with
  | none =>
    refine invoke_follows hC hwalk hargs hrs hs₁ hmatch₁ ?_
    rintro hu _ ⟨⟩
    exact ⟨_, s, b, hused hu, .new hx₁, .new hx₂⟩
  | some d =>
    -- the value of the constructor of the superclass is dropped
    have hrs := hw.receivers_anonymous hn hrs
    have hcode : Program C.world (.callFree C.world) .idle
        (fun m => classCode (C.world.env m) m.walk
          (.ofExpr? (some (.new span outer cls ctor args (some d)))) (d.sym.or cls) d
          (rs.map (·.withType (d.sym.or cls)))) (fun _ => True) .busy :=
      program_classCode hw hn hrs hclass
    refine ((followsFrom_bind hw
      ((program_anyInvoke hw hargs hrs).bind fun _ _ => program_dropResult) (fun _ _ => hcode)
      within_anyCall within_callFree hs₁ hmatch₁
      (invoke_drop_follows hC hwalk hargs hrs hs₁ hmatch₁)
      fun n a s₂ b₂ _ _ _ hs₂ hmatch₂ => ?_).of_eq fun m => anonymous_eq ..)
    exact (follows_of_callFree hC hwalk hcode s₂ b₂ hs₂ hmatch₂).mono fun _ => trivial

theorem memberRef_follows {span : Span} {x : Option Expr} {name : String} {sym : Option MethodId}
    {kind : MemberRefKind} {type : Option ClassId}
    (hn : C.world.nodes (.expr (.memberRef span x name sym kind type))) (hs : C.world.Tracked s)
    (hmatch : C.Matches s b)
    (hused : used → C.real (.expr (.memberRef span x name sym kind type)) s ∧
      C.bounded (.expr (.memberRef span x name sym kind type)) b) :
    C.FollowsFrom n₀ used
      (fun m => memberRef (C.world.env m) m.walk
        (.ofExpr? (some (.memberRef span x name sym kind type))) x sym kind type) s b := by
  have hw := hC.closed
  have ht : C.world.types type := hw.named _ hn _ List.mem_cons_self
  have hx : (Effects.callFree C.world).CoversExpr x :=
    coversExpr_callFree hw hn fun y hy => by simp [Node.children, Node.exprChildren, hy]
  have hcaptured : Program C.world (.callFree C.world) .idle
      (fun m => capturedReceivers (C.world.env m) m.walk x sym kind)
      (fun o => ∀ rs, o = some rs → C.world.Receivers rs) .idle :=
    program_capturedReceivers hw hx
  refine (followsFrom_bind hw hcaptured
    (fun o ho => program_deferredCall (E := .anyCall C.world) hw ht ho fun _ _ => permits_anyCall)
    within_callFree within_anyCall hs hmatch (follows_of_callFree hC hwalk hcaptured s b hs hmatch)
    fun n o s₁ b₁ hx₁ hx₂ ho hs₁ hmatch₁ => ?_).of_eq fun m => memberRef_eq ..
  cases o with
  | none =>
    exact (follows_of_callFree hC hwalk (Program.pure (p := .idle) (V := fun _ => True) trivial)
      s₁ b₁ hs₁ hmatch₁).mono fun _ => trivial
  | some rs =>
    refine (invoke_follows hC hwalk (List.forall_mem_nil _) (ho rs rfl) (s := s₁.deferring) hs₁
      hmatch₁.deferring ?_).later hmatch₁.refs
    rintro hu _ ⟨⟩
    exact ⟨_, s, b, hused hu, .memberRef hx₁, .memberRef hx₂⟩

/-- A call whose value is taken follows. -/
theorem invoke_take_follows {site : Site} {mth : Option MethodId} {receiver : List Ref}
    (hr : C.world.Receivers receiver) (hs : C.world.Tracked s) (hmatch : C.Matches s b)
    (hused : C.BothUse site.pos mth [] receiver s b) :
    C.FollowsFrom n₀ True (fun m => invoke (C.world.env m) m.walk site mth [] receiver >>=
      fun _ => takeResult (C.world.env m)) s b := by
  have hargs : ∀ a ∈ [], (Effects.callFree C.world).CoversExpr a := List.forall_mem_nil _
  refine followsFrom_bind hC.closed (program_anyInvoke hC.closed hargs hr)
    (fun _ _ => program_takeResult (E := .callFree C.world)) within_anyCall within_callFree hs
    hmatch (invoke_follows hC hwalk hargs hr hs hmatch fun _ => hused)
    fun n _ s₁ b₁ _ _ _ hs₁ hmatch₁ => ?_
  exact follows_of_callFree hC hwalk (program_takeResult (p := .busy)) s₁ b₁ hs₁ hmatch₁

theorem iterate_follows {site : Site} (it : Iteration) {receiver : List Ref}
    (hr : C.world.Receivers receiver) (hs : C.world.Tracked s) (hmatch : C.Matches s b)
    (hused : C.BothUse site.pos (some it.iterator) [] receiver s b) :
    C.FollowsFrom n₀ True (fun m => iterate (C.world.env m) m.walk site it receiver) s b := by
  have hpure {rs : List Ref} : Program C.world (.callFree C.world) .idle
      (fun _ => pure (rs.map (·.asThis))) (fun _ => True) .idle := .pure trivial
  refine (followsFrom_bind hC.closed
    ((program_anyInvoke hC.closed (List.forall_mem_nil _) hr).bind fun _ _ => program_takeResult)
    (fun _ _ => hpure) within_anyCall within_callFree hs hmatch
    (invoke_take_follows hC hwalk hr hs hmatch hused)
    fun n rs s₁ b₁ _ _ _ hs₁ hmatch₁ => ?_).of_eq fun m => (bind_assoc _ _ _).symm
  exact follows_of_callFree hC hwalk hpure s₁ b₁ hs₁ hmatch₁

theorem advanceOver_follows {site : Site} {d : Option VarDecl} {body : Option Stmt}
    (hcovers : (Effects.callFree C.world).CoversLoop C.world d body) {rs : List Ref}
    (hrs : ∀ r ∈ rs, C.world.Tracks r) (it : Iteration) {iterators : List Ref}
    (hr : C.world.Receivers iterators) (hs : C.world.Tracked s) (hmatch : C.Matches s b)
    (hused : ∀ n s₁ b₁,
      checkNext C.realEnv (exec C.realEnv n₀) site it iterators s = .ok () s₁ →
      checkNext C.boundedEnv (exec C.boundedEnv n) site it iterators b = .ok () b₁ →
      C.BothUse site.pos (some it.next) [] iterators s₁ b₁) :
    C.FollowsFrom n₀ True
      (fun m => advanceOver (C.world.env m) m.walk site d body rs it iterators) s b := by
  have hw := hC.closed
  have hargs : ∀ a ∈ [], (Effects.callFree C.world).CoversExpr a := List.forall_mem_nil _
  have hcheck : Program C.world (.anyCall C.world) .idle
      (fun m => checkNext (C.world.env m) m.walk site it iterators) (fun _ => True) .idle :=
    (program_anyInvoke hw hargs hr).bind fun _ _ => program_dropResult
  have htake : Program C.world (.anyCall C.world) .idle
      (fun m => takeNext (C.world.env m) m.walk site it iterators)
      (fun rs => ∀ r ∈ rs, C.world.Tracks r) .idle :=
    (program_anyInvoke hw hargs hr).bind fun _ _ => program_takeResult
  have hassign {values : List Ref} (hvalues : ∀ r ∈ values, C.world.Tracks r) :
      Program C.world (.callFree C.world) .idle
        (fun m => assignElements m.walk d body (arrayElements C.world.base rs ++ values))
        (fun _ => True) .idle :=
    program_assignElements hw hcovers fun r hr =>
      (List.mem_append.mp hr).elim (hw.tracks_arrayElements rfl hrs r) (hvalues r)
  have hadvance : C.FollowsFrom n₀ True
      (fun m => advance (C.world.env m) m.walk site it iterators) s b :=
    (followsFrom_bind hw hcheck (fun _ _ => htake) within_anyCall within_anyCall hs hmatch
      (invoke_drop_follows hC hwalk hargs hr hs hmatch) fun n _ s₁ b₁ hx₁ hx₂ _ hs₁ hmatch₁ =>
      invoke_take_follows hC hwalk hr hs₁ hmatch₁ (hused n s₁ b₁ hx₁ hx₂)).of_eq fun m =>
      advance_eq ..
  refine followsFrom_bind hw (program_advance hw it hr fun _ _ => permits_anyCall)
    (fun values hvalues => hassign hvalues) within_anyCall within_callFree hs hmatch hadvance
    fun n values s₁ b₁ _ _ hvalues hs₁ hmatch₁ => ?_
  exact follows_of_callFree hC hwalk (hassign hvalues) s₁ b₁ hs₁ hmatch₁

/-- A pass of a for-each loop follows. -/
theorem forEachPass_follows {span : Span} {d : Option VarDecl} {x : Option Expr}
    {body : Option Stmt} (hn : C.world.nodes (.stmt (.forEach span d x body)))
    (hloop : C.real (.loop (.forEach span d x body)) s ∧
      C.bounded (.loop (.forEach span d x body)) b)
    {s₁ b₁ : State}
    (hpasses : Relation.ReflTransGen (Turns C.realEnv (.forEach span d x body))
      { s with depth := s.depth + 1 } s₁)
    (hpasses' : Relation.ReflTransGen (Turns C.boundedEnv (.forEach span d x body))
      { b with depth := b.depth + 1 } b₁)
    (hs₁ : C.world.Tracked s₁) (hmatch₁ : C.Matches s₁ b₁) :
    C.FollowsFrom n₀ True (fun m => forEachPass (C.world.env m) m.walk d x body) s₁ b₁ := by
  have hw := hC.closed
  have hx : (Effects.callFree C.world).CoversExpr x :=
    coversExpr_callFree hw hn fun y hy => by simp [Node.children, Node.stmtChildren, hy]
  have hvar : ∀ y, d = some y → C.world.nodes (.ofVarDecl y) := fun y hy =>
    hw.below _ _ hn (.single (by simp [Node.children, Node.stmtChildren, hy]))
  have hbody : ∀ y, body = some y → C.world.nodes (.stmt y) := fun y hy =>
    hw.below _ _ hn (.single (by simp [Node.children, Node.stmtChildren, hy]))
  have hcovers : (Effects.callFree C.world).CoversLoop C.world d body :=
    ⟨fun y hy => ⟨hvar y hy, Effects.covers_anything (hvar y hy)⟩, fun y hy =>
      Effects.covers_anything (hbody y hy)⟩
  have hcovers' : (Effects.anyCall C.world).CoversLoop C.world d body := ⟨hcovers.var, hcovers.body⟩
  have hvalue := program_value (w := C.world) hx
  refine (followsFrom_bind hw hvalue
    (fun rs hrs =>
      program_passOver (E := .anyCall C.world) hw hcovers' (fun _ _ => permits_anyCall) hrs)
    within_callFree within_anyCall hs₁ hmatch₁
    (follows_of_callFree hC hwalk hvalue s₁ b₁ hs₁ hmatch₁)
    fun n rs s₂ b₂ hx₁ hx₂ hrs hs₂ hmatch₂ => ?_).of_eq fun m => forEachPass_eq ..
  have helems : ∀ r ∈ arrayElements C.world.base rs, C.world.Tracks r :=
    hw.tracks_arrayElements rfl hrs
  cases hit : iterationOf? C.world.base rs with
  | none =>
    refine (follows_of_callFree hC hwalk (program_assignElements hw hcovers helems) s₂ b₂ hs₂
      hmatch₂).of_eq fun m => ?_
    rw [passOver, show iterationOf? (C.world.env m) rs = none from hit]
    rfl
  | some it =>
    have hr : C.world.Receivers (iterables C.world.base rs) := World.receivers_iterables hrs
    have hiterate : Program C.world (.anyCall C.world) .idle
        (fun m => iterate (C.world.env m) m.walk (.ofExpr? x) it (iterables C.world.base rs))
        C.world.Receivers .idle := program_iterate hw it hr permits_anyCall
    have hadvance {its : List Ref} (hits : C.world.Receivers its) :
        Program C.world (.anyCall C.world) .idle
          (fun m => advanceOver (C.world.env m) m.walk (.ofExpr? x) d body rs it its)
          (fun _ => True) .idle :=
      program_advanceOver hw hcovers' hrs it hits fun _ _ => permits_anyCall
    refine (followsFrom_bind hw hiterate (fun its hits => hadvance hits) within_anyCall
      within_anyCall hs₂ hmatch₂ (iterate_follows hC hwalk it hr hs₂ hmatch₂ ?_)
      fun k its s₃ b₃ hx₃ hx₄ hits hs₃ hmatch₃ =>
        advanceOver_follows hC hwalk hcovers hrs it hits hs₃ hmatch₃ ?_).of_eq fun m => ?_
    · intro pos hpos
      obtain ⟨e, rfl, rfl⟩ := Option.map_eq_some_iff.mp hpos
      exact ⟨_, s, b, hloop, .iterator hpasses hx₁ hit, .iterator hpasses' hx₂ hit⟩
    · intro k' s₄ b₄ hcheck hcheck' pos hpos
      obtain ⟨e, rfl, rfl⟩ := Option.map_eq_some_iff.mp hpos
      exact ⟨_, s, b, hloop, .next hpasses hx₁ hit hx₃ hcheck,
        .next hpasses' hx₂ hit hx₄ hcheck'⟩
    · rw [passOver, show iterationOf? (C.world.env m) rs = some it from hit]
      rfl

/-- An expression follows, up to its result if that is not used. -/
theorem stepExpr_follows {e : Expr} (hn : C.world.nodes (.expr e)) (hs : C.world.Tracked s)
    (hmatch : C.Matches s b) (hused : used → C.real (.expr e) s ∧ C.bounded (.expr e) b) :
    C.FollowsFrom n₀ used (fun m => stepExpr (C.world.env m) m.walk e) s b := by
  by_cases hcalls : (Task.expr e).MakesCalls
  · cases e with
    | call span callee args => exact call_follows hC hwalk hn hs hmatch hused
    | new span outer cls ctor args body => exact create_follows hC hwalk hn hs hmatch hused
    | memberRef span x name sym kind type =>
      exact memberRef_follows hC hwalk hn hs hmatch hused
    | _ => exact absurd hcalls id
  · have hE : (Effects.ofTask (.expr e)).Within C.world := Effects.within_ofTask hC.closed hn
    exact ((program_stepExpr hC.closed e hn).follows hC hwalk hE (fun _ _ _ => hcalls) s b hs
      hmatch).mono fun _ => trivial

/-- A pass of a loop follows. -/
theorem loopPass_follows {stmt : Stmt} (hn : C.world.nodes (.stmt stmt))
    (hloop : C.real (.loop stmt) s ∧ C.bounded (.loop stmt) b) {s₁ b₁ : State}
    (hpasses : Relation.ReflTransGen (Turns C.realEnv stmt) { s with depth := s.depth + 1 } s₁)
    (hpasses' : Relation.ReflTransGen (Turns C.boundedEnv stmt) { b with depth := b.depth + 1 } b₁)
    (hs₁ : C.world.Tracked s₁) (hmatch₁ : C.Matches s₁ b₁) :
    C.FollowsFrom n₀ True (fun m => loopPass (C.world.env m) m.walk stmt) s₁ b₁ := by
  by_cases hcalls : (Task.loop stmt).MakesCalls
  · cases stmt with
    | forEach span d x body =>
      exact forEachPass_follows hC hwalk hn hloop hpasses hpasses' hs₁ hmatch₁
    | _ => exact absurd hcalls id
  · have hE : (Effects.ofTask (.loop stmt)).Within C.world := Effects.within_ofTask hC.closed hn
    exact (program_loopPass hC.closed stmt hn).follows hC hwalk hE (fun _ _ _ => hcalls) s₁ b₁ hs₁
      hmatch₁

/-- The passes of a loop follow. -/
theorem repeated_follows {stmt : Stmt} (hn : C.world.nodes (.stmt stmt))
    (hloop : C.real (.loop stmt) s ∧ C.bounded (.loop stmt) b) {n k k' : Nat} {s₁ b₁ s' b' : State}
    (hpasses : Relation.ReflTransGen (Turns C.realEnv stmt) { s with depth := s.depth + 1 } s₁)
    (hpasses' : Relation.ReflTransGen (Turns C.boundedEnv stmt) { b with depth := b.depth + 1 } b₁)
    (hs₁ : C.world.Tracked s₁) (hmatch₁ : C.Matches s₁ b₁)
    (hrun : RunsThrough C.real (C.realMode n₀)
      (fun m => repeated (loopPass (C.world.env m) m.walk stmt) k) s₁ () s')
    (hp : s'.pending = none)
    (hrun' : RunsThrough C.bounded (C.boundedMode n)
      (fun m => repeated (loopPass (C.world.env m) m.walk stmt) k') b₁ () b') :
    Agree True () s' () b' := by
  induction k generalizing k' s₁ b₁ with
  | zero => cases hrun.ends
  | succ k ih =>
    cases k' with
    | zero => cases hrun'.ends
    | succ k' =>
      have hw := hC.closed
      have hE : (Effects.ofTask (.loop stmt)).Within C.world := Effects.within_ofTask hw hn
      have hpass := program_loopPass hw stmt hn
      have hreal := exec_lawful hw C.checked .running C.ties n₀
      have hbounded := exec_lawful hw C.checked (.nesting C.limit) C.ties n
      obtain ⟨s₂, hfirst, ⟨hs₂, hframe⟩, hrest⟩ := hrun.of_repeated hreal hpass hE hs₁
      obtain ⟨b₂, hfirst', ⟨-, hframe'⟩, hrest'⟩ :=
        hrun'.of_repeated hbounded hpass hE (hmatch₁.tracked hs₁)
      have hp₂ : s₂.pending = none := by
        rcases hrest with ⟨-, rfl⟩ | ⟨-, hrest⟩
        · exact hp
        · have hlast := repeated_lawful (w := C.world) (E := .ofTask (.loop stmt))
            (fun s s' hs hrun => (hpass.lawful hreal hE s () s' hs hrun).2) k s₂ s' hs₂ hrest.ends
          exact pending_none_of_frame hlast.2 hp
      have hagree := loopPass_follows hC hwalk hn hloop hpasses hpasses' hs₁ hmatch₁ () s₂ hfirst
        hp₂ n () b₂ hfirst'
      -- the two loops go on or end together, because they see the same references
      have hsame : b₂.refs.sameAs b₁.refs = s₂.refs.sameAs s₁.refs := by
        rw [(hagree.same trivial).2, hmatch₁.refs]
      rcases hrest with ⟨h, rfl⟩ | ⟨h, hrest⟩ <;> rcases hrest' with ⟨h', rfl⟩ | ⟨h', hrest'⟩
      · exact hagree
      · cases (h'.symm.trans hsame).trans h
      · cases (h'.symm.trans hsame).trans h
      · exact ih (hpasses.tail ⟨⟨n₀, hfirst.ends⟩, h⟩) (hpasses'.tail ⟨⟨n, hfirst'.ends⟩, h'⟩) hs₂
          (hmatch₁.next hframe hframe' hagree) hrest hrest'

/-- The interpretation of a piece follows if that of the pieces inside does. -/
theorem step_follows {t : Task} (hn : C.world.nodes t.node) (hs : C.world.Tracked s)
    (hmatch : C.Matches s b) (hpiece : C.real t s ∧ C.bounded t b) :
    C.FollowsFrom n₀ True (fun m => step (C.world.env m) m.walk m.passes t) s b := by
  cases t with
  | expr e => exact stepExpr_follows hC hwalk hn hs hmatch fun _ => hpiece
  | drop e =>
    have hexpr : C.FollowsFrom n₀ False (fun m => stepExpr (C.world.env m) m.walk e) s b :=
      stepExpr_follows hC hwalk hn hs hmatch False.elim
    exact hexpr.drop
  | stmt stmt =>
    have hE : (Effects.ofTask (.stmt stmt)).Within C.world := Effects.within_ofTask hC.closed hn
    have hstep := program_step hC.closed (nofun : ∀ x, Task.stmt stmt ≠ .loop x) hn
    exact hstep.follows hC hwalk hE (fun _ _ _ => id) s b hs hmatch
  | loop stmt =>
    have hpasses : C.FollowsFrom n₀ True
        (fun m => repeated (loopPass (C.world.env m) m.walk stmt) m.passes)
        { s with depth := s.depth + 1 } { b with depth := b.depth + 1 } := by
      intro _ s' hrun hp n _ b' hrun'
      exact repeated_follows hC hwalk hn hpiece .refl .refl hs hmatch.deeper
        ⟨hrun.ends, hrun.through⟩ hp ⟨hrun'.ends, hrun'.through⟩
    exact hpasses.scope

end Pieces

end Methods

end Comparison

/-- What a run of a piece comes to, it comes to from the piece. -/
theorem runsThrough_step {w : World} {checked : Bool} {guard : Guard} {ties : TieOrder}
    {P : Task → State → Prop}
    (hP : ∀ t s t' s', P t s → Calls ⟨w.table, w.catalog, checked, guard, ties⟩ t s t' s' → P t' s')
    {n : Nat} {t : Task} {s s' : State} {u : Unit}
    (h : RunsThrough P (w.mode checked guard ties n) (fun m => m.walk t) s u s') :
    ∃ k, n = k + 1 ∧ P t s ∧ RunsThrough P (w.mode checked guard ties k)
      (fun m => step (w.env m) m.walk m.passes t) s u s' := by
  cases n with
  | zero => cases h.ends
  | succ n =>
    have hpiece : P t s := h.through t s fun e => ⟨s, planted_walk_self⟩
    exact ⟨n, rfl, hpiece, h.ends, fun t' s₁ hcomes => hP t s t' s₁ hpiece ⟨n, hcomes⟩⟩

/-- With a limit on the nesting of calls, the interpretation of all pieces of a program follows the
one that leaves out calls of running declarations. -/
theorem exec_follows {C : Comparison} (hC : C.Fair) (n₀ : Nat) (t : Task)
    (ht : C.world.nodes t.node) : C.Follows n₀ fun m => m.walk t := by
  induction n₀ generalizing t with
  | zero => exact fun _ _ _ _ _ _ hrun => nomatch hrun.ends
  | succ n₀ ih =>
    intro s b hs hmatch _ s' hrun hp n _ b' hrun'
    obtain ⟨_, ⟨⟩, hreal, hrun⟩ := runsThrough_step hC.real hrun
    obtain ⟨n, rfl, hbounded, hrun'⟩ := runsThrough_step hC.bounded hrun'
    exact step_follows hC ih ht hs hmatch ⟨hreal, hbounded⟩ _ s' hrun hp n _ b' hrun'

end Interp

end EarlyEscape
