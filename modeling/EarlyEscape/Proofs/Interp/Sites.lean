import EarlyEscape.Proofs.Interp.Blame

/-!
# The sites of calls and leaks

The calls that a piece of a program makes are those of a call, of the creation of an instance, of a
method reference, and the calls by which a for-each loop gets its values.  Their receivers are found
by running code first.  A leak is recorded at a throw statement, at the site of a call that hands
its receivers to unknown code, or at an argument of such a call; and the code of a call is entered
from its site.

## Main definitions

* `Interp.Invokes` : the calls that the interpretation of a piece of a program makes.
* `Interp.LeakSite` : the nodes at which it may record a leak.
* `Interp.CallSite` : the nodes from which it may enter code.

## Main results

* `Interp.step_blamed` : a piece that records a leak does so at such a node, or in a piece that it
  comes to, at the same place or in code that it enters from such a node.
-/

namespace EarlyEscape.Interp

/-- The interpretation of a piece of a program from a state makes a call: the node is its site, and
the call is that of a method with arguments and receivers. -/
inductive Invokes (env : Env) :
    Task → State → Node → Option MethodId → List (Option Expr) → List Ref → Prop
  | call {t : Task} {span : Span} {callee : Option Expr} {args : List (Option Expr)} {fuel : Nat}
      {s s₁ : State} {receiver : List Ref} (ht : t.node = .expr (.call span callee args))
      (hsuper : isSuperCall env callee = false)
      (hrun : callReceivers env (exec env fuel) callee s = .ok receiver s₁) :
      Invokes env t s (.expr (.call span callee args)) (methodOf? callee) args receiver
  | new {t : Task} {span : Span} {outer : Option Expr} {cls : Option ClassId}
      {ctor : Option MethodId} {args : List (Option Expr)} {body : Option ClassDecl} {fuel : Nat}
      {s s₁ : State} {receiver : List Ref}
      (ht : t.node = .expr (.new span outer cls ctor args body))
      (hrun : newReceivers env (exec env fuel) outer cls s = .ok receiver s₁) :
      Invokes env t s (.expr (.new span outer cls ctor args body)) ctor args
        (constructed cls body receiver)
  | memberRef {t : Task} {span : Span} {x : Option Expr} {name : String} {sym : Option MethodId}
      {kind : MemberRefKind} {type : Option ClassId} {fuel : Nat} {s s₁ : State}
      {receiver : List Ref} (ht : t.node = .expr (.memberRef span x name sym kind type))
      (hrun : capturedReceivers env (exec env fuel) x sym kind s = .ok (some receiver) s₁) :
      Invokes env t s (.expr (.memberRef span x name sym kind type)) sym [] receiver
  /-- The first call of a pass of a for-each loop. -/
  | iterator {span : Span} {d : Option VarDecl} {x : Expr} {body : Option Stmt} {fuel : Nat}
      {s s₁ s₂ : State} {rs : List Ref} {it : Iteration}
      (hpasses : Relation.ReflTransGen (Turns env (.forEach span d (some x) body))
        { s with depth := s.depth + 1 } s₁)
      (hrun : value env (exec env fuel) (some x) s₁ = .ok rs s₂)
      (hit : iterationOf? env rs = some it) :
      Invokes env (.loop (.forEach span d (some x) body)) s (.expr x) (some it.iterator) []
        (iterables env rs)
  /-- The other calls of the pass. -/
  | iteration {span : Span} {d : Option VarDecl} {x : Expr} {body : Option Stmt} {fuel : Nat}
      {s s₁ s₂ s₃ : State} {rs iterators : List Ref} {it : Iteration} {m : MethodId}
      (hpasses : Relation.ReflTransGen (Turns env (.forEach span d (some x) body))
        { s with depth := s.depth + 1 } s₁)
      (hrun : value env (exec env fuel) (some x) s₁ = .ok rs s₂)
      (hit : iterationOf? env rs = some it)
      (hiterators : iterate env (exec env fuel) (.ofExpr? (some x)) it (iterables env rs) s₂ =
        .ok iterators s₃)
      (hm : m = it.hasNext ∨ m = it.next) :
      Invokes env (.loop (.forEach span d (some x) body)) s (.expr x) (some m) [] iterators

/-- The interpretation of a piece of a program from a state may record a leak at the node. -/
inductive LeakSite (env : Env) : Task → State → Node → Prop
  | thrown {span : Span} {x : Option Expr} {s : State} :
      LeakSite env (.stmt (.throwStmt span x)) s (.stmt (.throwStmt span x))
  /-- The receivers of a call of unknown code. -/
  | receiver {t : Task} {s : State} {n : Node} {m : Option MethodId} {args : List (Option Expr)}
      {receiver : List Ref} (h : Invokes env t s n m args receiver)
      (hunknown : Unknown env m receiver) (hleaks : receiver.any (triggersLeak env) = true) :
      LeakSite env t s n
  /-- An argument of such a call. -/
  | argument {t : Task} {s : State} {n : Node} {m : Option MethodId} {args : List (Option Expr)}
      {receiver : List Ref} {a : Expr} (h : Invokes env t s n m args receiver)
      (hunknown : Unknown env m receiver) (ha : some a ∈ args) : LeakSite env t s (.expr a)

/-- The interpretation of a piece of a program from a state may enter the code from the node. -/
inductive CallSite (env : Env) : Task → State → Node → Callee → Prop
  | method {t : Task} {s : State} {n : Node} {m : Option MethodId} {args : List (Option Expr)}
      {receiver : List Ref} {e : Catalog.Entry} {body : Block}
      (h : Invokes env t s n m args receiver) (hknown : Known env m receiver e body) :
      CallSite env t s n (.method e body)
  | initializers {t : Task} {span : Span} {outer : Option Expr} {cls : Option ClassId}
      {ctor : Option MethodId} {args : List (Option Expr)} {d : ClassDecl} {s : State}
      (ht : t.node = .expr (.new span outer cls ctor args (some d))) :
      CallSite env t s (.expr (.new span outer cls ctor args (some d)))
        (.initializers d (d.sym.or cls))
  | later {t : Task} {span : Span} {outer : Option Expr} {cls : Option ClassId}
      {ctor : Option MethodId} {args : List (Option Expr)} {d : ClassDecl} {s : State}
      {md : MethodDecl} {body : Block}
      (ht : t.node = .expr (.new span outer cls ctor args (some d))) (hm : md ∈ d.methods)
      (hb : md.body = some body) (hctor : md.isConstructor env.table = false)
      (hstatic : (Member.method md).isStatic env.table = false) :
      CallSite env t s (.expr (.new span outer cls ctor args (some d)))
        (.later md body (d.sym.or cls))

/-! ### Sites lie in the piece -/

section Within

variable {env : Env} {t : Task} {s : State} {n : Node}

attribute [local simp] Task.node Node.children Node.exprChildren Node.stmtChildren

theorem Invokes.within {m : Option MethodId} {args : List (Option Expr)} {receiver : List Ref}
    (h : Invokes env t s n m args receiver) : t.node.Within n := by
  cases h with
  | call ht => exact ht ▸ .refl
  | new ht => exact ht ▸ .refl
  | memberRef ht => exact ht ▸ .refl
  | iterator => exact .single (by simp)
  | iteration => exact .single (by simp)

theorem Invokes.within_argument {m : Option MethodId} {args : List (Option Expr)}
    {receiver : List Ref} (h : Invokes env t s n m args receiver) {a : Expr} (ha : some a ∈ args) :
    t.node.Within (.expr a) := by
  cases h with
  | call ht => exact .single (by rw [ht]; simp [ha])
  | new ht => exact .single (by rw [ht]; simp [ha])
  | memberRef => cases ha
  | iterator => cases ha
  | iteration => cases ha

/-- An expression whose value is dropped makes the same calls. -/
theorem Invokes.dropped {e : Expr} {m : Option MethodId} {args : List (Option Expr)}
    {receiver : List Ref} (h : Invokes env (.expr e) s n m args receiver) :
    Invokes env (.drop e) s n m args receiver := by
  cases h with
  | call ht hsuper hrun => exact .call ht hsuper hrun
  | new ht hrun => exact .new ht hrun
  | memberRef ht hrun => exact .memberRef ht hrun

theorem LeakSite.dropped {e : Expr} (h : LeakSite env (.expr e) s n) :
    LeakSite env (.drop e) s n := by
  cases h with
  | receiver h hunknown hleaks => exact .receiver h.dropped hunknown hleaks
  | argument h hunknown ha => exact .argument h.dropped hunknown ha

theorem CallSite.dropped {e : Expr} {c : Callee} (h : CallSite env (.expr e) s n c) :
    CallSite env (.drop e) s n c := by
  cases h with
  | method h hknown => exact .method h.dropped hknown
  | initializers ht => exact .initializers ht
  | later ht hm hb hctor hstatic => exact .later ht hm hb hctor hstatic

theorem LeakSite.within (h : LeakSite env t s n) : t.node.Within n := by
  cases h with
  | thrown => exact .refl
  | receiver h _ _ => exact h.within
  | argument h _ ha => exact h.within_argument ha

theorem CallSite.within {c : Callee} (h : CallSite env t s n c) : t.node.Within n := by
  cases h with
  | method h _ => exact h.within
  | initializers ht => exact ht ▸ .refl
  | later ht => exact ht ▸ .refl

end Within

/-- The code of a call holds all that lies in one of its nodes. -/
theorem Callee.holds_of_within {t : SymbolTable} {c : Callee} {n n' : Node} (h : c.Holds t n)
    (hn : n.Within n') : c.Holds t n' := by
  have hinitializers {d : ClassDecl} (h : InInitializers t d n) : InInitializers t d n' := by
    obtain ⟨x, hx, hin⟩ := h
    exact ⟨x, hx, hin.trans hn⟩
  cases c with
  | method e body => exact h.imp (·.trans_left hn) fun h => ⟨h.1, h.2.1, hinitializers h.2.2⟩
  | initializers d cls => exact hinitializers h
  | later d body cls => exact Relation.TransGen.trans_left h hn

/-! ### Effects at sites -/

/-- The world of a program. -/
abbrev Env.world (env : Env) : World := World.all env.table env.catalog

/-- The interpreter of a program with a bound on the steps, as a mode. -/
abbrev Env.mode (env : Env) (n : Nat) : Mode := env.world.mode env.checked env.guard env.ties n

theorem Env.lawful (env : Env) (n : Nat) : (env.mode n).Lawful env.world :=
  exec_lawful (World.all_closed env.table env.catalog) env.checked env.guard env.ties n

theorem Env.within (env : Env) (E : Effects) : E.Within env.world :=
  ⟨fun _ _ => trivial, fun _ _ => trivial⟩

/-- The effects of a piece of a program, with leaks and calls at its sites alone. -/
def Effects.atSites (env : Env) (t : Task) (s : State) : Effects :=
  { Effects.ofTask t with
    leaks := fun pos => ∀ p, pos = some p → ∃ n, LeakSite env t s n ∧ n.pos = p
    enters := fun pos c => ∀ p, pos = some p → ∃ n, CallSite env t s n c ∧ n.pos = p }

section Effects

variable {env : Env} {t : Task} {s : State}

/-- A call may lead to leaks and to code at its own site. -/
theorem Invokes.permits {n : Node} {m : Option MethodId} {args : List (Option Expr)}
    {receiver : List Ref} (h : Invokes env t s n m args receiver) :
    (Effects.atSites env t s).Permits env.world.base (some n.pos) m args receiver where
  site hunknown hleaks := by
    rintro _ ⟨⟩
    exact ⟨n, .receiver h hunknown hleaks, rfl⟩
  arg hunknown a ha := by
    rintro p hp
    obtain ⟨e, rfl, rfl⟩ := Option.map_eq_some_iff.mp hp
    exact ⟨.expr e, .argument h hunknown ha, rfl⟩
  known e body hknown := by
    rintro _ ⟨⟩
    exact ⟨n, .method h ⟨hknown.exempt, hknown.resolved, hknown.invokable, hknown.body⟩, rfl⟩

/-- The creation of an instance may lead to the code of the class. -/
theorem permitsNew_atSites {span : Span} {outer : Option Expr} {cls : Option ClassId}
    {ctor : Option MethodId} {args : List (Option Expr)} {body : Option ClassDecl}
    {receiver : List Ref} (h : Invokes env (.expr (.new span outer cls ctor args body)) s
      (.expr (.new span outer cls ctor args body)) ctor args (constructed cls body receiver)) :
    (Effects.atSites env (.expr (.new span outer cls ctor args body)) s).PermitsNew env.world.base
      (some span.pos) cls ctor args body receiver where
  call := h.permits
  body d hd := by
    subst hd
    refine ⟨Effects.reads_new, ?_, fun md hm body hb hctor hstatic => ?_⟩
    · rintro _ ⟨⟩
      exact ⟨_, .initializers rfl, rfl⟩
    · rintro _ ⟨⟩
      exact ⟨_, .later rfl hm hb hctor hstatic, rfl⟩

end Effects

/-! ### Pieces that record a leak -/

section Step

variable {env : Env} {n : Nat} {s : State} {trail : Trail}

/-- A piece that runs one program after another records a leak at its sites, if the second program
makes its calls there.  Which calls these are may depend on the run of the first one. -/
theorem blamed_after {t : Task} {s₀ : State} {p q r : Phase} {α β : Type} {x : Mode → Interp α}
    {f : α → Mode → Interp β} {V : α → Prop} {U : β → Prop}
    (hx : Program env.world (.atSites env t s₀) p x V q)
    (hf : ∀ a, V a → Program env.world (.ofTask t) q (f a) U r)
    (hsites : ∀ a s₁, x (env.mode n) s = .ok a s₁ → V a →
      Program env.world (.atSites env t s₀) q (f a) U r)
    (h : Records (x (env.mode n) >>= fun a => f a (env.mode n)) s trail) :
    Blamed env.world (env.mode n) (.atSites env t s₀) (fun m => x m >>= fun a => f a m) s
      trail := by
  have hm := env.lawful n
  refine blamed_bind hm (env.within _) (env.within _) hx hf (World.all_tracked s)
    (hx.blamed hm (env.within _) s (World.all_tracked s)) (fun a s₁ hrun ha hs₁ h => ?_) h
  exact (hsites a s₁ hrun ha).blamed hm (env.within _) s₁ hs₁ h

theorem call_blamed {span : Span} {callee : Option Expr} {args : List (Option Expr)} {site : Site}
    (hsite : site.pos = some span.pos)
    (h : Records (call env (exec env n) site callee args) s trail) :
    Blamed env.world (env.mode n) (.atSites env (.expr (.call span callee args)) s)
      (fun m => call (env.world.env m) m.walk site callee args) s trail := by
  have hw := World.all_closed env.table env.catalog
  let E : Effects := .atSites env (.expr (.call span callee args)) s
  obtain ⟨hcallee, hargs⟩ := @covers_call span callee args
  have hargs' : ∀ a ∈ args, E.CoversExpr a := hargs
  cases hsuper : isSuperCall env callee with
  | true =>
    have hprogram : Program env.world E .idle
        (fun m => call (env.world.env m) m.walk site callee args) (fun _ => True) .idle := by
      refine (program_evalDrops hargs').of_eq fun m => ?_
      rw [call, if_pos (show isSuperCall (env.world.env m) callee = true from hsuper)]
    exact hprogram.blamed (env.lawful n) (env.within _) s (World.all_tracked s) h
  | false =>
    rw [call_eq hsuper] at h
    have hcalls : Task.MakesCalls (.expr (.call span callee args)) := trivial
    refine (blamed_after (program_callReceivers hcallee)
      (fun rs hrs => program_invoke hw hargs hrs (Effects.permits_ofTask hcalls))
      (fun receiver s₁ hrun hr => program_invoke hw hargs' hr ?_) h).of_eq fun m => call_eq hsuper
    have hinvokes : Invokes env (.expr (.call span callee args)) s
        (.expr (.call span callee args)) (methodOf? callee) args receiver := .call rfl hsuper hrun
    rw [hsite]
    exact hinvokes.permits

theorem create_blamed {span : Span} {outer : Option Expr} {cls : Option ClassId}
    {ctor : Option MethodId} {args : List (Option Expr)} {body : Option ClassDecl} {site : Site}
    (hsite : site.pos = some span.pos)
    (h : Records (create env (exec env n) site outer cls ctor args body) s trail) :
    Blamed env.world (env.mode n) (.atSites env (.expr (.new span outer cls ctor args body)) s)
      (fun m => create (env.world.env m) m.walk site outer cls ctor args body) s trail := by
  have hw := World.all_closed env.table env.catalog
  let E : Effects := .atSites env (.expr (.new span outer cls ctor args body)) s
  obtain ⟨houter, hargs⟩ := @covers_new span outer cls ctor args body
  have hargs' : ∀ a ∈ args, E.CoversExpr a := hargs
  rw [create_eq] at h
  have hn : env.world.nodes (.expr (.new span outer cls ctor args body)) := trivial
  refine (blamed_after (program_newReceivers hw trivial houter)
    (fun rs hrs => program_createAt hw hn hargs hrs Effects.permitsNew_ofTask)
    (fun receiver s₁ hrun hr => program_createAt hw hn hargs' hr ?_) h).of_eq fun m => create_eq ..
  have hinvokes : Invokes env (.expr (.new span outer cls ctor args body)) s
      (.expr (.new span outer cls ctor args body)) ctor args (constructed cls body receiver) :=
    .new rfl hrun
  rw [hsite]
  exact permitsNew_atSites hinvokes

theorem memberRef_blamed {span : Span} {x : Option Expr} {name : String} {sym : Option MethodId}
    {kind : MemberRefKind} {type : Option ClassId} {site : Site}
    (hsite : site.pos = some span.pos)
    (h : Records (memberRef env (exec env n) site x sym kind type) s trail) :
    Blamed env.world (env.mode n) (.atSites env (.expr (.memberRef span x name sym kind type)) s)
      (fun m => memberRef (env.world.env m) m.walk site x sym kind type) s trail := by
  have hw := World.all_closed env.table env.catalog
  have hx : (Effects.ofTask (.expr (.memberRef span x name sym kind type))).CoversExpr x :=
    covers_memberRef
  rw [memberRef_eq] at h
  have hcalls : Task.MakesCalls (.expr (.memberRef span x name sym kind type)) := trivial
  refine (blamed_after (program_capturedReceivers hw hx)
    (fun o ho => program_deferredCall hw trivial ho fun rs _ => Effects.permits_ofTask hcalls)
    (fun o s₁ hrun ho => program_deferredCall hw trivial ho fun receiver hsome => ?_) h).of_eq
      fun m => memberRef_eq ..
  have hinvokes : Invokes env (.expr (.memberRef span x name sym kind type)) s
      (.expr (.memberRef span x name sym kind type)) sym [] receiver :=
    .memberRef rfl (hsome ▸ hrun)
  rw [hsite]
  exact hinvokes.permits

/-- What a pass of a for-each loop does with its value records a leak at the sites of the loop. -/
theorem passOver_blamed {span : Span} {d : Option VarDecl} {x : Expr} {body : Option Stmt}
    {s₁ s₂ : State} (hpasses : Relation.ReflTransGen (Turns env (.forEach span d (some x) body))
      { s with depth := s.depth + 1 } s₁) {rs : List Ref}
    (hrun : value env (exec env n) (some x) s₁ = .ok rs s₂)
    (h : Records (passOver env (exec env n) (.ofExpr? (some x)) d body rs) s₂ trail) :
    Blamed env.world (env.mode n) (.atSites env (.loop (.forEach span d (some x) body)) s)
      (fun m => passOver (env.world.env m) m.walk (.ofExpr? (some x)) d body rs) s₂ trail := by
  have hw := World.all_closed env.table env.catalog
  have hrs : ∀ r ∈ rs, env.world.Tracks r := fun r _ => ⟨trivial, trivial, fun _ _ => trivial⟩
  let E : Effects := .atSites env (.loop (.forEach span d (some x) body)) s
  have hloop := (@covers_forEach env.world span d (some x) body).2 hw trivial
  have hloop' : E.CoversLoop env.world d body := ⟨hloop.var, hloop.body⟩
  cases hit : iterationOf? env rs with
  | none =>
    have heq (m : Mode) : passOver (env.world.env m) m.walk (.ofExpr? (some x)) d body rs =
        assignElements m.walk d body (arrayElements env rs) := by
      rw [passOver, show iterationOf? (env.world.env m) rs = none from hit]
      rfl
    have helems : ∀ r ∈ arrayElements env rs, env.world.Tracks r := hw.tracks_arrayElements rfl hrs
    exact ((program_assignElements hw hloop' helems).of_eq heq).blamed (env.lawful n)
      (env.within _) s₂ (World.all_tracked s₂) h
  | some it =>
    have heq (m : Mode) : passOver (env.world.env m) m.walk (.ofExpr? (some x)) d body rs =
        iterate (env.world.env m) m.walk (.ofExpr? (some x)) it (iterables env rs) >>=
          advanceOver (env.world.env m) m.walk (.ofExpr? (some x)) d body rs it := by
      rw [passOver, show iterationOf? (env.world.env m) rs = some it from hit]
      rfl
    have hcalls : Task.MakesCalls (.loop (.forEach span d (some x) body)) := trivial
    have hr : env.world.Receivers (iterables env rs) := World.receivers_iterables hrs
    have hiterator : Invokes env (.loop (.forEach span d (some x) body)) s (.expr x)
        (some it.iterator) [] (iterables env rs) := .iterator hpasses hrun hit
    rw [show passOver env (exec env n) (.ofExpr? (some x)) d body rs = _ from heq (env.mode n)] at h
    refine (blamed_after (program_iterate hw it hr hiterator.permits)
      (fun its hits => program_advanceOver hw hloop hrs it hits fun _ _ =>
        Effects.permits_ofTask hcalls)
      (fun its s₃ hiterators hits => program_advanceOver hw hloop' hrs it hits fun mth hmth => ?_)
      h).of_eq heq
    have hinvokes : Invokes env (.loop (.forEach span d (some x) body)) s (.expr x) (some mth) []
        its := .iteration hpasses hrun hit hiterators hmth
    exact hinvokes.permits

/-- A pass of a for-each loop records a leak at the sites of the loop. -/
theorem forEachPass_blamed {span : Span} {d : Option VarDecl} {x : Option Expr} {body : Option Stmt}
    {s₁ : State} (hpasses : Relation.ReflTransGen (Turns env (.forEach span d x body))
      { s with depth := s.depth + 1 } s₁)
    (h : Records (forEachPass env (exec env n) d x body) s₁ trail) :
    Blamed env.world (env.mode n) (.atSites env (.loop (.forEach span d x body)) s)
      (fun m => forEachPass (env.world.env m) m.walk d x body) s₁ trail := by
  have hw := World.all_closed env.table env.catalog
  let E : Effects := .atSites env (.loop (.forEach span d x body)) s
  obtain ⟨hx, hloop⟩ := @covers_forEach env.world span d x body
  have hloop := hloop hw trivial
  have hx' : E.CoversExpr x := hx
  cases x with
  | none =>
    -- without a value there is no position, and calls and leaks take one
    have hnone (m : Option MethodId) (rs : List Ref) : E.Permits env.world.base none m [] rs :=
      ⟨nofun, nofun, nofun⟩
    exact (program_forEachPass hw hx' ⟨hloop.var, hloop.body⟩ hnone).blamed (env.lawful n)
      (env.within _) s₁ (World.all_tracked s₁) h
  | some x =>
    rw [forEachPass_eq] at h
    have hvalue : Program env.world E .idle (fun m => value (env.world.env m) m.walk (some x))
        (fun rs => ∀ r ∈ rs, env.world.Tracks r) .idle := program_value hx'
    have hcalls : Task.MakesCalls (.loop (.forEach span d (some x) body)) := trivial
    refine (blamed_bind (env.lawful n) (env.within _) (env.within _) hvalue
      (fun rs hrs => program_passOver hw hloop (fun _ _ => Effects.permits_ofTask hcalls) hrs)
      (World.all_tracked s₁) (hvalue.blamed (env.lawful n) (env.within _) s₁ (World.all_tracked s₁))
      (fun rs s₂ hrun _ _ h => passOver_blamed hpasses hrun h) h).of_eq fun m => forEachPass_eq ..

/-- A loop records a leak at its sites if its passes do. -/
theorem looped_blamed {stmt : Stmt} (hpass : ∀ s₁, Relation.ReflTransGen (Turns env stmt)
      { s with depth := s.depth + 1 } s₁ → Records (loopPass env (exec env n) stmt) s₁ trail →
        Blamed env.world (env.mode n) (.atSites env (.loop stmt) s)
          (fun m => loopPass (env.world.env m) m.walk stmt) s₁ trail)
    (h : Records (looped n (loopPass env (exec env n) stmt)) s trail) :
    Blamed env.world (env.mode n) (.atSites env (.loop stmt) s)
      (fun m => looped m.passes (loopPass (env.world.env m) m.walk stmt)) s trail := by
  have hw := World.all_closed env.table env.catalog
  have hblamed := repeated_blamed (env.lawful n) (program_loopPass hw stmt trivial) (env.within _) n
    { s with depth := s.depth + 1 } (World.all_tracked _) (fun s₁ hpasses _ => hpass s₁ ?_)
    (h.deeper pending_dropResult)
  · exact .of_inScope (hblamed.lift rfl rfl fun _ _ => id)
  · exact hpasses.lift id fun a b hturn => ⟨⟨n, hturn.1⟩, hturn.2⟩

/-- A piece that makes no calls of its own records a leak at its sites if it does so at all. -/
theorem Blamed.atSites {t : Task} (ht : ¬t.MakesCalls) {w : World} {m : Mode} {α : Type}
    {x : Mode → Interp α} {s₁ : State} (h : Blamed w m (.ofTask t) x s₁ trail) :
    Blamed w m (.atSites env t s) x s₁ trail := by
  refine h.mono (fun _ => id) (fun pos hpos p hp => ?_) fun pos c hcalls => absurd hcalls ht
  rcases hpos with hcalls | ⟨span, x, rfl, hpos⟩
  · exact absurd hcalls ht
  · exact ⟨_, .thrown, Option.some.inj (hpos.symm.trans hp)⟩

theorem stepExpr_blamed {e : Expr} (h : Records (stepExpr env (exec env n) e) s trail) :
    Blamed env.world (env.mode n) (.atSites env (.expr e) s)
      (fun m => stepExpr (env.world.env m) m.walk e) s trail := by
  have hw := World.all_closed env.table env.catalog
  have hquiet (ht : ¬Task.MakesCalls (.expr e)) : Blamed env.world (env.mode n)
      (.atSites env (.expr e) s) (fun m => stepExpr (env.world.env m) m.walk e) s trail :=
    .atSites ht ((program_stepExpr hw e trivial).blamed (env.lawful n) (env.within _) s
      (World.all_tracked s) h)
  cases e with
  | call span callee args => exact call_blamed rfl h
  | new span outer cls ctor args body => exact create_blamed rfl h
  | memberRef span x name sym kind type => exact memberRef_blamed rfl h
  | _ => exact hquiet id

/-- An expression whose value is dropped records a leak at the same sites. -/
theorem drop_blamed {e : Expr}
    (h : Records (stepExpr env (exec env n) e >>= fun _ => dropResult) s trail) :
    Blamed env.world (env.mode n) (.atSites env (.drop e) s)
      (fun m => stepExpr (env.world.env m) m.walk e >>= fun _ => dropResult) s trail := by
  have hrecords : Records (stepExpr env (exec env n) e) s trail := by
    refine (h.bind fun _ _ _ _ _ hdrop _ => pending_dropResult _ _ hdrop).resolve_right ?_
    rintro ⟨_, s₁, -, hdrop⟩
    exact not_records (fun _ => pending_dropResult s₁) hdrop
  have hblamed := (stepExpr_blamed hrecords).of_bind_left (f := fun _ _ => dropResult)
  refine hblamed.mono (fun t ht => ?_) (fun pos hpos p hp => ?_) fun pos c hc p hp => ?_
  · rwa [Effects.atSites, Effects.ofTask_drop]
  · obtain ⟨n, hsite, hn⟩ := hpos p hp
    exact ⟨n, hsite.dropped, hn⟩
  · obtain ⟨n, hsite, hn⟩ := hc p hp
    exact ⟨n, hsite.dropped, hn⟩

theorem loop_blamed {stmt : Stmt}
    (h : Records (looped n (loopPass env (exec env n) stmt)) s trail) :
    Blamed env.world (env.mode n) (.atSites env (.loop stmt) s)
      (fun m => looped m.passes (loopPass (env.world.env m) m.walk stmt)) s trail := by
  have hw := World.all_closed env.table env.catalog
  refine looped_blamed (fun s₁ hpasses h => ?_) h
  have hquiet (ht : ¬Task.MakesCalls (.loop stmt)) : Blamed env.world (env.mode n)
      (.atSites env (.loop stmt) s) (fun m => loopPass (env.world.env m) m.walk stmt) s₁ trail :=
    .atSites ht ((program_loopPass hw stmt trivial).blamed (env.lawful n) (env.within _) s₁
      (World.all_tracked s₁) h)
  cases stmt with
  | forEach span d x body => exact forEachPass_blamed hpasses h
  | _ => exact hquiet id

/-- The interpretation of a piece of a program that records a leak does so at one of its sites, in a
piece inside, or in the code of a call that it enters from one of its sites. -/
theorem step_blamed {t : Task} (h : Records (step env (exec env n) n t) s trail) :
    Blamed env.world (env.mode n) (.atSites env t s)
      (fun m => step (env.world.env m) m.walk m.passes t) s trail := by
  have hw := World.all_closed env.table env.catalog
  cases t with
  | expr e => exact stepExpr_blamed h
  | drop e => exact drop_blamed h
  | stmt stmt =>
    have hprogram := @program_step env.world hw (.stmt stmt) nofun trivial
    exact .atSites id (hprogram.blamed (env.lawful n) (env.within _) s (World.all_tracked s) h)
  | loop stmt => exact loop_blamed h

end Step

end EarlyEscape.Interp
