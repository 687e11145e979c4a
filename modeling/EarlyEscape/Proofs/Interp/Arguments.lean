import EarlyEscape.Proofs.Interp.Unrolling

/-!
# The arguments of a call

A call interprets its arguments in one of three ways: those of the constructor of the superclass are
dropped, those of a known method become values of its parameters, and those of an unknown method are
handed to unknown code.  In all three ways the arguments run one after the other, each from the
state that the last one has left, until a leak is recorded.  So a leak inside an argument is always
found, unless the call is not interpreted at all, because its method is exempt.

## Main definitions

* `Interp.State.NoResult` : the scope holds no result.
* `Interp.GoesOn` : a step goes on as if the result of an expression had been dropped.
* `Interp.LeadIn` : what a call interprets before its arguments.

## Main results

* `Interp.forM_passUnknown_leaks`, `Interp.bindArgs_leaks` : arguments leak however they are used.
* `Interp.call_analyzes_arguments` : a leak in the parts of a call is a leak of the call.
* `Interp.call_skips_arguments` : calls of exempt methods and explicit outer instances of
  superclasses are not interpreted.
-/

namespace EarlyEscape.Interp

/-! ### Results that are dropped -/

/-- The current scope of the state holds no result. -/
def State.NoResult (s : State) : Prop := ∀ r ∈ s.refs, r.role ≠ .expr s.depth

theorem State.NoResult.discardExprs {s : State} (h : s.NoResult) :
    s.refs.discardExprs s.depth = s.refs := by
  refine RefSet.ext (List.filter_eq_self.mpr fun r hr => ?_)
  simpa [RefSet.isExprAt] using h r hr

theorem noResult_discardExprs (s : State) :
    State.NoResult { s with refs := s.refs.discardExprs s.depth } :=
  fun _ hr => (RefSet.mem_discardExprs.mp hr).2

/-- After an expression whose result is dropped, the scope holds no result. -/
theorem evalDrop_noResult {env : Env} {n : Nat} {a : Option Expr} {s s' : State}
    (h : evalDrop (exec env n) a s = .ok () s') (hs : s.NoResult) : s'.NoResult := by
  cases a with
  | none =>
    cases h
    exact hs
  | some e =>
    obtain ⟨s₁, -, rfl⟩ := exec_drop_eq_ok.mp h
    exact noResult_discardExprs s₁

/-- A step goes on from the state that is left when the expression is interpreted and its result
dropped, or it has recorded a leak. -/
def GoesOn {β : Type} (walk : Walk) (a : Option Expr) (s : State) (x : Interp β) : Prop :=
  ∀ b s₁ s₂, x s = .ok b s₁ → evalDrop walk a s = .ok () s₂ → s₁ = s₂ ∨ s₁.pending ≠ none

theorem goesOn_evalDrop {walk : Walk} {a : Option Expr} {s : State} :
    GoesOn walk a s (evalDrop walk a) := by
  rintro ⟨⟩ s₁ s₂ h h'
  cases h.symm.trans h'
  exact .inl rfl

/-- It does not matter to the state whether a result is taken or dropped. -/
theorem goesOn_value {env : Env} {n : Nat} {a : Option Expr} {s : State} (hs : s.NoResult) :
    GoesOn (exec env n) a s (value env (exec env n) a) := by
  intro rs s₁ s₂ h h'
  left
  obtain ⟨⟨⟩, t, heval, htake⟩ := bind_eq_ok.mp h
  cases (takeResult_eq_ok htake).2
  cases a with
  | none =>
    cases heval
    cases h'
    rw [hs.discardExprs]
  | some e =>
    obtain ⟨t', heval', rfl⟩ := exec_drop_eq_ok.mp h'
    cases heval.symm.trans heval'
    rfl

theorem goesOn_passUnknown {env : Env} {n : Nat} {a : Option Expr} {s : State}
    (hs : s.NoResult) : GoesOn (exec env n) a s (passUnknown env (exec env n) a) := by
  rintro ⟨⟩ s₁ s₂ h h'
  obtain ⟨rs, t, hvalue, hpass⟩ := bind_eq_ok.mp h
  have hdrop := goesOn_value hs rs t s₂ hvalue h'
  split at hpass
  · rcases leakAt_eq_ok.mp hpass with ⟨-, rfl⟩ | ⟨-, p, -, rfl⟩
    · exact hdrop
    · exact .inr nofun
  · cases hpass
    exact hdrop

/-! ### Arguments in order -/

/-- A step keeps that a leak has been recorded. -/
def KeepsLeak {α : Type} (x : Interp α) : Prop :=
  ∀ s a s', x s = .ok a s' → s.pending ≠ none → s'.pending ≠ none

section Order

variable {env : Env} {E : Effects} {n : Nat} {args : List (Option Expr)} {s t : State}

/-- Programs keep a leak that has been recorded. -/
theorem Program.keepsLeak {p q : Phase} {α : Type} {x : Mode → Interp α} {V : α → Prop}
    (h : Program (World.all env.table env.catalog) E p x V q) (n : Nat) :
    KeepsLeak (x ((World.all env.table env.catalog).mode env.checked env.guard env.ties n)) := by
  intro s a s' hrun hleak
  rwa [(h.of_run hrun).2.pending hleak]

theorem keepsLeak_evalDrops (hargs : ∀ a ∈ args, E.CoversExpr a) :
    KeepsLeak (args.forM (evalDrop (exec env n))) :=
  Program.keepsLeak (program_evalDrops hargs) n

theorem keepsLeak_passUnknowns (hargs : ∀ a ∈ args, E.CoversExpr a) (hleaks : ∀ pos, E.leaks pos) :
    KeepsLeak (args.forM (passUnknown env (exec env n))) :=
  Program.keepsLeak (program_forM fun a ha => program_passUnknown (hargs a ha) (hleaks _)) n

theorem keepsLeak_bindArgs (hargs : ∀ a ∈ args, E.CoversExpr a) (params : List VarDecl)
    (seed : RefSet) : KeepsLeak (bindArgs env (exec env n) args params seed) :=
  Program.keepsLeak (program_bindArgs (World.all_closed env.table env.catalog)
    (P := fun _ => True) (fun _ _ => trivial) hargs params seed (fun _ _ => trivial)
    fun _ _ => ⟨⟨trivial, trivial, fun _ _ => trivial⟩, trivial⟩) n

/-- A leak in the first arguments is found when all arguments are handed to unknown code. -/
theorem forM_passUnknown_leaks (hargs : ∀ a ∈ args, E.CoversExpr a) (hleaks : ∀ pos, E.leaks pos)
    (hs : s.NoResult) {i : Nat} (hseq : (args.take i).forM (evalDrop (exec env n)) s = .ok () t)
    (hleak : t.pending ≠ none) {s₁ s' : State} (hs₁ : s₁ = s ∨ s₁.pending ≠ none)
    (hrun : args.forM (passUnknown env (exec env n)) s₁ = .ok () s') : s'.pending ≠ none := by
  induction args generalizing s s₁ i with
  | nil =>
    rw [List.take_nil] at hseq
    cases hseq
    cases hrun
    exact hs₁.elim (fun h => h ▸ hleak) id
  | cons a args ih =>
    rcases hs₁ with rfl | hs₁
    · cases i with
      | zero =>
        cases hseq
        exact keepsLeak_passUnknowns hargs hleaks _ _ _ hrun hleak
      | succ i =>
        obtain ⟨⟨⟩, s₂, hdrop, hseq⟩ := bind_eq_ok.mp hseq
        obtain ⟨⟨⟩, s₃, hpass, hrun⟩ := bind_eq_ok.mp hrun
        exact ih (fun b hb => hargs b (List.mem_cons_of_mem a hb)) (evalDrop_noResult hdrop hs) hseq
          (goesOn_passUnknown hs () s₃ s₂ hpass hdrop) hrun
    · exact keepsLeak_passUnknowns hargs hleaks _ _ _ hrun hs₁

/-- A leak in the first arguments is found when the arguments become values of parameters. -/
theorem bindArgs_leaks (hargs : ∀ a ∈ args, E.CoversExpr a) (hs : s.NoResult) {i : Nat}
    (hseq : (args.take i).forM (evalDrop (exec env n)) s = .ok () t) (hleak : t.pending ≠ none)
    {params : List VarDecl} {seed seed' : RefSet} {s' : State}
    (hrun : bindArgs env (exec env n) args params seed s = .ok seed' s') : s'.pending ≠ none := by
  induction args generalizing s i params seed with
  | nil =>
    rw [List.take_nil] at hseq
    cases hseq
    cases hrun
    exact hleak
  | cons a args ih =>
    cases i with
    | zero =>
      cases hseq
      exact keepsLeak_bindArgs hargs _ _ _ _ _ hrun hleak
    | succ i =>
      have hrest : ∀ b ∈ args, E.CoversExpr b := fun b hb => hargs b (List.mem_cons_of_mem a hb)
      obtain ⟨⟨⟩, s₂, hdrop, hseq⟩ := bind_eq_ok.mp hseq
      -- whatever becomes of the result, the other arguments go on from the same state
      have hnext {β : Type} {x : Interp β} {f : β → Interp RefSet} (hx : GoesOn (exec env n) a s x)
          (hf : ∀ b, ∃ params seed, f b = bindArgs env (exec env n) args params seed)
          (hrun : (x >>= f) s = .ok seed' s') : s'.pending ≠ none := by
        obtain ⟨b, s₃, hxs, hrun⟩ := bind_eq_ok.mp hrun
        obtain ⟨params', seed₁, hf⟩ := hf b
        rw [hf] at hrun
        rcases hx b s₃ s₂ hxs hdrop with rfl | hleak₃
        · exact ih hrest (evalDrop_noResult hdrop hs) hseq hrun
        · exact keepsLeak_bindArgs hrest _ _ _ _ _ hrun hleak₃
      cases params with
      | nil => exact hnext goesOn_evalDrop (fun _ => ⟨_, _, rfl⟩) hrun
      | cons p params =>
        cases hp : p.sym with
        | none =>
          simp only [bindArgs, hp] at hrun
          exact hnext goesOn_evalDrop (fun _ => ⟨_, _, rfl⟩) hrun
        | some v =>
          simp only [bindArgs, hp] at hrun
          exact hnext (goesOn_value hs) (fun _ => ⟨_, _, rfl⟩) hrun

/-! ### The three ways to treat arguments -/

theorem keepsLeak_enter {site : Option Pos} {decl : DeclId} {cls : Option ClassId} {seed : RefSet}
    {body : Interp Unit} (h : KeepsLeak body) : KeepsLeak (enter env site decl cls seed body) := by
  intro s rs s' hrun hleak
  rcases enter_eq_ok.mp hrun with ⟨-, -, rfl⟩ | ⟨pos, s₁, -, -, hbody, -, -, rfl⟩
  · exact hleak
  · exact h _ _ s₁ hbody hleak

theorem keepsLeak_runMethod (entry : Catalog.Entry) (body : Block) :
    KeepsLeak (runMethod env (exec env n) entry body) :=
  Program.keepsLeak program_runMethod n

/-- A leak in the first arguments of a known method is found. -/
theorem invokeKnown_leaks (hargs : ∀ a ∈ args, E.CoversExpr a) (hs : s.NoResult) {i : Nat}
    (hseq : (args.take i).forM (evalDrop (exec env n)) s = .ok () t) (hleak : t.pending ≠ none)
    {site : Site} {receiver : List Ref} {entry : Catalog.Entry} {body : Block} {s' : State}
    (hrun : invokeKnown env (exec env n) site args receiver entry body s = .ok () s') :
    s'.pending ≠ none := by
  obtain ⟨seed, s₁, hbind, hcall⟩ := bind_eq_ok.mp hrun
  have hleak₁ : s₁.pending ≠ none := bindArgs_leaks hargs hs hseq hleak hbind
  split at hcall
  · cases hcall
    exact hleak₁
  · obtain ⟨rs, s₂, henter, ⟨⟩⟩ := bind_eq_ok.mp hcall
    exact keepsLeak_enter (keepsLeak_runMethod entry body) s₁ rs s₂ henter hleak₁

/-- A leak in the first arguments of an unknown method is found. -/
theorem invokeUnknown_leaks (hargs : ∀ a ∈ args, E.CoversExpr a) (hleaks : ∀ pos, E.leaks pos)
    (hs : s.NoResult) {i : Nat} (hseq : (args.take i).forM (evalDrop (exec env n)) s = .ok () t)
    (hleak : t.pending ≠ none) {site : Site} {receiver : List Ref} {s' : State}
    (hrun : invokeUnknown env (exec env n) site args receiver s = .ok () s') :
    s'.pending ≠ none := by
  have hend {s₁ : State} (hs₁ : s₁ = s ∨ s₁.pending ≠ none) (hrun : (do
      args.forM (passUnknown env (exec env n))
      if site.isCreation then push (receiver.filterMap Ref.toIndirect) : Interp Unit) s₁ =
        .ok () s') : s'.pending ≠ none := by
    obtain ⟨⟨⟩, s₂, hpass, hpush⟩ := bind_eq_ok.mp hrun
    have hleak₂ : s₂.pending ≠ none :=
      forM_passUnknown_leaks hargs hleaks hs hseq hleak hs₁ hpass
    split at hpush <;> cases hpush <;> exact hleak₂
  unfold invokeUnknown at hrun
  split at hrun
  · obtain ⟨⟨⟩, s₁, hreceiver, hrest⟩ := bind_eq_ok.mp hrun
    rcases leakAt_eq_ok.mp hreceiver with ⟨-, rfl⟩ | ⟨-, p, -, rfl⟩
    · exact hend (.inl rfl) hrest
    · exact hend (.inr (Option.some_ne_none _)) hrest
  · exact hend (.inl rfl) hrun

/-- A leak that is recorded after the first arguments of a method is found.  Those of an exempt
method are not interpreted, so that only a leak before them counts. -/
theorem invoke_leaks (hargs : ∀ a ∈ args, E.CoversExpr a) (hleaks : ∀ pos, E.leaks pos)
    (hs : s.NoResult) {i : Nat} (hseq : (args.take i).forM (evalDrop (exec env n)) s = .ok () t)
    (hleak : t.pending ≠ none) {site : Site} {mth : Option MethodId} {receiver : List Ref}
    {s' : State} (hexempt : i = 0 ∨ mth.any (isExempt env) = false)
    (hrun : invoke env (exec env n) site mth args receiver s = .ok () s') : s'.pending ≠ none := by
  rcases invoke_eq_ok hrun with ⟨hex, rfl⟩ | ⟨-, hrun⟩ | ⟨e, body, -, hrun⟩
  · obtain rfl : i = 0 := hexempt.resolve_right fun h => nomatch hex.symm.trans h
    cases hseq
    exact hleak
  · exact invokeUnknown_leaks hargs hleaks hs hseq hleak hrun
  · exact invokeKnown_leaks hargs hs hseq hleak hrun

end Order

/-! ### The parts of a call -/

section Parts

variable {env : Env} {span : Span} {callee : Expr} {args : List (Option Expr)} {s t s' : State}

/-- What a call interprets before its first `i` arguments, in a state.  The constructor of the
superclass is not interpreted, so that only its plain name may come before the arguments.  If there
are arguments to be interpreted, the method of any other call must not be exempt. -/
inductive LeadIn (env : Env) (callee : Expr) (i : Nat) (s : State) : List (Option Expr) → Prop
  | method (hsuper : isSuperCall env (some callee) = false)
      (hexempt : i = 0 ∨ (methodOf? (some callee)).any (isExempt env) = false) :
      LeadIn env callee i s [some callee]
  | nothing (hsuper : isSuperCall env (some callee) = true) : LeadIn env callee i s []
  | name (hsuper : isSuperCall env (some callee) = true) {span : Span} {name : String}
      {sym : Option Symbol} (hname : callee = .ident span name sym) (hs : s.NoResult) :
      LeadIn env callee i s [some callee]

/-- The parts of a call, interpreted with a larger bound on the steps. -/
theorem evalDrops_mono {es : List (Option Expr)} {n k : Nat} (hle : n ≤ k)
    (h : es.forM (evalDrop (exec env n)) s = .ok () t) :
    es.forM (evalDrop (exec env k)) s = .ok () t := by
  have hw := World.all_closed env.table env.catalog
  have hes : Program (World.all env.table env.catalog)
      (.anything (World.all env.table env.catalog)) .idle
      (fun m => es.forM (evalDrop m.walk)) (fun _ => True) .idle :=
    program_evalDrops fun _ _ _ _ t _ =>
      Effects.covers_anything (show (World.all env.table env.catalog).nodes t.node from trivial)
  exact hes.run_of_le hw Effects.within_anything hle (World.all_tracked s) h

/-- Without a result in the scope, the name of the superclass leaves everything as it was when its
value is dropped. -/
theorem evalDrop_receiverName {n : Nat} {span : Span} {name : String} {sym : Option Symbol}
    (hname : isReceiverName name = true) (hs : s.NoResult)
    (h : evalDrop (exec env n) (some (.ident span name sym)) s = .ok () t) :
    Similar false .empty t s := by
  obtain ⟨s₁, hident, rfl⟩ := exec_drop_eq_ok.mp h
  obtain _ | n := n
  · cases hident
  have hpush : pushThis env s = .ok () s₁ := by
    simpa only [exec, step, stepExpr, ident, hname, if_true] using hident
  obtain ⟨rs, s₂, hreceivers, ⟨⟩⟩ := bind_eq_ok.mp hpush
  obtain ⟨⟨⟩, s₃, horder, ⟨⟩⟩ := bind_eq_ok.mp hreceivers
  cases (requireOrder_eq_ok.mp horder).2
  refine ⟨fun r => ?_, rfl, rfl, rfl, rfl, rfl⟩
  simp only [RefSet.mem_discardExprs, RefSet.mem_insertAll, List.mem_map, RefSet.not_mem_empty,
    or_false]
  constructor
  · rintro ⟨⟨x, -, rfl⟩ | hr, hne⟩
    · exact absurd rfl hne
    · exact hr
  · exact fun hr => ⟨.inr hr, hs r hr⟩

theorem callReceivers_state {n : Nat} {s₁ s₂ : State} {rs : List Ref}
    (hcallee : callReceivers env (exec env n) (some callee) s = .ok rs s₁)
    (hdrop : evalDrop (exec env n) (some callee) s = .ok () s₂) : s₁ = s₂ := by
  obtain ⟨⟨⟩, u, heval, hrest⟩ := bind_eq_ok.mp hcallee
  obtain ⟨u', heval', rfl⟩ := exec_drop_eq_ok.mp hdrop
  cases heval.symm.trans heval'
  split at hrest
  · obtain ⟨⟨⟩, _, ⟨⟩, ⟨⟩⟩ := bind_eq_ok.mp hrest
    rfl
  · obtain ⟨_, _, htake, ⟨⟩⟩ := bind_eq_ok.mp hrest
    exact (takeResult_eq_ok htake).2

/-- The arguments of a call of the constructor of the superclass are all interpreted. -/
theorem superCall_leaks {walk : Walk} {site : Site} (hsuper : isSuperCall env (some callee) = true)
    (hkeeps : ∀ i, KeepsLeak ((args.drop i).forM (evalDrop walk))) {i : Nat}
    (hseq : (args.take i).forM (evalDrop walk) s = .ok () t) (hleak : t.pending ≠ none)
    (hrun : call env walk site (some callee) args s = .ok () s') : s'.pending ≠ none := by
  have happend : args.forM (evalDrop walk) =
      (args.take i).forM (evalDrop walk) >>= fun _ => (args.drop i).forM (evalDrop walk) := by
    conv_lhs => rw [← List.take_append_drop i args]
    exact List.forM_append
  rw [call, if_pos hsuper, happend] at hrun
  obtain ⟨⟨⟩, t', hfirst, hrest⟩ := bind_eq_ok.mp hrun
  cases hfirst.symm.trans hseq
  exact hkeeps i t _ s' hrest hleak

/-- The parts of a call are always analyzed.  If what a call interprets before its arguments and its
first `i` arguments, one after the other and with their results dropped, record a leak, then so does
the call, however it is resolved.  The exceptions are the arguments of exempt methods, and explicit
outer instances in calls of constructors of the superclass. -/
theorem call_analyzes_arguments (env : Env) (fuel fuel' : Nat) (span : Span) (callee : Expr)
    (args : List (Option Expr)) (i : Nat) (s t s' : State) (lead : List (Option Expr))
    (hlead : LeadIn env callee i s lead)
    (hseq : (lead ++ args.take i).forM (evalDrop (exec env fuel)) s = .ok () t)
    (hleak : t.pending ≠ none)
    (hcall : exec env fuel' (.expr (.call span (some callee) args)) s = .ok () s') :
    s'.pending ≠ none := by
  -- one bound on the steps for both
  obtain ⟨n, hseq, hcall⟩ : ∃ n,
      (lead ++ args.take i).forM (evalDrop (exec env n)) s = .ok () t ∧
      call env (exec env n) (.ofExpr? (some (.call span (some callee) args))) (some callee) args s =
        .ok () s' := by
    refine ⟨max fuel fuel', evalDrops_mono (Nat.le_max_left ..) hseq, ?_⟩
    have happrox := exec_mono env (show fuel' ≤ max fuel fuel' + 1 by omega)
      (.expr (.call span (some callee) args)) s
    exact (eq_of_approx happrox fun ⟨_, hex⟩ => nomatch hcall.symm.trans hex).symm.trans hcall
  have hargs := (@covers_call span (some callee) args).2
  have hkeeps (i : Nat) : KeepsLeak ((args.drop i).forM (evalDrop (exec env n))) :=
    keepsLeak_evalDrops fun a ha => hargs a (List.mem_of_mem_drop ha)
  cases hlead with
  | method hsuper hexempt =>
    obtain ⟨⟨⟩, s₁, hdrop, hseq⟩ := bind_eq_ok.mp hseq
    rw [call_eq hsuper] at hcall
    obtain ⟨rs, s₂, hcallee, hcall⟩ := bind_eq_ok.mp hcall
    cases callReceivers_state hcallee hdrop
    have hclean : s₁.NoResult := by
      obtain ⟨u, -, rfl⟩ := exec_drop_eq_ok.mp hdrop
      exact noResult_discardExprs u
    exact invoke_leaks hargs (fun _ => .inl trivial) hclean hseq hleak hexempt hcall
  | nothing hsuper => exact superCall_leaks hsuper hkeeps hseq hleak hcall
  | @name hsuper _ name _ hname hs =>
    subst hname
    obtain ⟨⟨⟩, s₁, hdrop, hseq⟩ := bind_eq_ok.mp hseq
    have hreceiver : isReceiverName name = true := by
      simp only [isSuperCall, nameOf, Expr.name, Bool.and_eq_true] at hsuper
      simp [isReceiverName, hsuper.1]
    have hsim := evalDrop_receiverName hreceiver hs hdrop
    -- from the state before the name the arguments leak as well
    have hprogram : Program (World.all env.table env.catalog) _ .idle
        (fun m => (args.take i).forM (evalDrop m.walk)) (fun _ => True) .idle :=
      program_evalDrops fun a ha => hargs a (List.mem_of_mem_take ha)
    obtain ⟨t', hseq', hsim'⟩ := hprogram.similar (exec_forgets n n) false .empty s₁ s
      (Nat.le_refl n) (Effects.ignores_empty _) hsim () t hseq
    have hpending : t'.pending = t.pending := hsim'.pending
    exact superCall_leaks hsuper hkeeps hseq' (hpending ▸ hleak) hcall

end Parts

/-! ### Calls of three methods -/

/-- Three static methods: one of unknown code, one that is native, and one without parameters that
does nothing. -/
def argumentEnv : Env where
  table :=
    { methods := #[{ name := "register", flags := .of [.static] },
        { name := "measure", flags := .of [.static, .native] },
        { name := "ignore", flags := .of [.static] }] }
  catalog :=
    { entries := [(⟨2⟩,
        ⟨default, ⟨⟨0⟩, default, some ⟨2⟩, [], [], some ⟨default, false, []⟩⟩, false, true⟩)] }

/-- The name of a method in a call. -/
def methodName (name : String) (m : MethodId) : Expr := .ident default name (some (.method m))

/-- The call `register(this)`. -/
def registerThis : Expr :=
  .call default (some (methodName "register" ⟨0⟩)) [some (.ident ⟨7, 7⟩ "this" none)]

/-- The method `ignore` has no parameter and an empty body; its argument is analyzed. -/
theorem ignore_analyzes_argument :
    ∃ s', exec argumentEnv 6 (.expr (.call default (some (methodName "ignore" ⟨2⟩))
      [some registerThis])) (.start none) = .ok () s' ∧ s'.pending ≠ none := by
  obtain ⟨t, hseq, hleak⟩ := exists_of_endsWith (some [7])
    (([some (methodName "ignore" ⟨2⟩), some registerThis].forM (evalDrop (exec argumentEnv 6)))
      (.start none)) (by decide +kernel)
  obtain ⟨s', hcall, -⟩ := exists_of_endsWith (some [7])
    (exec argumentEnv 6 (.expr (.call default (some (methodName "ignore" ⟨2⟩))
      [some registerThis])) (.start none)) (by decide +kernel)
  exact ⟨s', hcall, call_analyzes_arguments argumentEnv 6 6 default (methodName "ignore" ⟨2⟩)
    [some registerThis] 1 (.start none) t s' [some (methodName "ignore" ⟨2⟩)]
    (.method (by decide) (.inr (by decide))) hseq (by simp [hleak]) hcall⟩

/-- The argument of a native method is not interpreted, and neither is the explicit outer instance
in a call of a constructor of the superclass. -/
theorem call_skips_arguments :
    (∃ t s', [some (methodName "measure" ⟨1⟩), some registerThis].forM
        (evalDrop (exec argumentEnv 6)) (.start none) = .ok () t ∧ t.pending = some [7] ∧
      exec argumentEnv 6 (.expr (.call default (some (methodName "measure" ⟨1⟩))
        [some registerThis])) (.start none) = .ok () s' ∧ s'.pending = none) ∧
    ∃ t s', evalDrop (exec argumentEnv 6) (some (.select default (some registerThis) "super" none))
        (.start none) = .ok () t ∧ t.pending = some [7] ∧
      exec argumentEnv 6 (.expr (.call default
        (some (.select default (some registerThis) "super" none)) [])) (.start none) = .ok () s' ∧
      s'.pending = none := by
  have hends (leak : Option Trail) (x : Interp Unit)
      (h : endsWith leak (x (.start none)) = true) :
      ∃ s', x (.start none) = .ok () s' ∧ s'.pending = leak := exists_of_endsWith leak _ h
  obtain ⟨t₁, ht₁, hleak₁⟩ := hends (some [7]) ([some (methodName "measure" ⟨1⟩),
    some registerThis].forM (evalDrop (exec argumentEnv 6))) (by decide +kernel)
  obtain ⟨s₁, hs₁, hquiet₁⟩ := hends none (exec argumentEnv 6 (.expr (.call default
    (some (methodName "measure" ⟨1⟩)) [some registerThis]))) (by decide +kernel)
  obtain ⟨t₂, ht₂, hleak₂⟩ := hends (some [7]) (evalDrop (exec argumentEnv 6)
    (some (.select default (some registerThis) "super" none))) (by decide +kernel)
  obtain ⟨s₂, hs₂, hquiet₂⟩ := hends none (exec argumentEnv 6 (.expr (.call default
    (some (.select default (some registerThis) "super" none)) []))) (by decide +kernel)
  exact ⟨⟨t₁, s₁, ht₁, hleak₁, hs₁, hquiet₁⟩, t₂, s₂, ht₂, hleak₂, hs₂, hquiet₂⟩

end EarlyEscape.Interp
