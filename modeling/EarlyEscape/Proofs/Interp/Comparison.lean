import EarlyEscape.Proofs.Interp.Nesting
import EarlyEscape.Proofs.Interp.Through

/-!
# Two ways to keep calls finite

A call is not entered while the same declaration is running from the same references.  Another way
to keep the interpretation finite is to enter calls up to a limit on their nesting.  A call that is
left out has no value, and all that differs in the two interpretations comes from such values: a
call that both enter, or that one of them leaves out, leads to corresponding states, and its values
agree unless the call is left out in one of them and gives references in the other one.

Where the first interpretation leaves out a call that the second one enters, the code of the call is
that of a running call, and a run of it with a smaller limit finds no leak either.

## Main definitions

* `Interp.UsesCall` : the calls that a piece of a program makes for their value.
* `Interp.LeavesOut`, `Interp.GivesValue` : such calls that are left out, and such that give
  references.
* `Interp.Comparison` : two interpretations of a program, with and without a limit.
* `Interp.Comparison.Safe` : the code of a declaration finds no leak below the limit.
* `Interp.Comparison.Matches` : the states of the two interpretations correspond.
* `Interp.Comparison.Follows` : the second interpretation of some code follows the first one.

## Main results

* `Interp.Comparison.followsFrom_bind` : one program after another follows if both do.
* `Interp.Comparison.safe_of_follows` : code that follows is safe, by induction on the limit.
* `Interp.Comparison.enter_follows` : a call follows, up to its value, if its code does.
-/

namespace EarlyEscape

namespace Interp

/-! ### Values of calls -/

/-- The interpretation of a piece of a program from the state `s` makes a call and uses its value:
from the position, with arguments and receivers, in the state `s₁`. -/
inductive UsesCall (env : Env) :
    Task → State → Pos → Option MethodId → List (Option Expr) → List Ref → State → Prop
  | call {span : Span} {callee : Option Expr} {args : List (Option Expr)} {fuel : Nat}
      {s s₁ : State} {receiver : List Ref} (hsuper : isSuperCall env callee = false)
      (hrun : callReceivers env (exec env fuel) callee s = .ok receiver s₁) :
      UsesCall env (.expr (.call span callee args)) s span.pos (methodOf? callee) args receiver s₁
  /-- The constructor of a class with a name. -/
  | new {span : Span} {outer : Option Expr} {cls : Option ClassId} {ctor : Option MethodId}
      {args : List (Option Expr)} {fuel : Nat} {s s₁ : State} {receiver : List Ref}
      (hrun : newReceivers env (exec env fuel) outer cls s = .ok receiver s₁) :
      UsesCall env (.expr (.new span outer cls ctor args none)) s span.pos ctor args receiver s₁
  | memberRef {span : Span} {x : Option Expr} {name : String} {sym : Option MethodId}
      {kind : MemberRefKind} {type : Option ClassId} {fuel : Nat} {s s₁ : State}
      {receiver : List Ref}
      (hrun : capturedReceivers env (exec env fuel) x sym kind s = .ok (some receiver) s₁) :
      UsesCall env (.expr (.memberRef span x name sym kind type)) s span.pos sym [] receiver
        s₁.deferring
  /-- The first call of a pass of a for-each loop. -/
  | iterator {span : Span} {d : Option VarDecl} {x : Expr} {body : Option Stmt} {fuel : Nat}
      {s s₁ s₂ : State} {rs : List Ref} {it : Iteration}
      (hpasses : Relation.ReflTransGen (Turns env (.forEach span d (some x) body))
        { s with depth := s.depth + 1 } s₁)
      (hrun : value env (exec env fuel) (some x) s₁ = .ok rs s₂)
      (hit : iterationOf? env rs = some it) :
      UsesCall env (.loop (.forEach span d (some x) body)) s x.pos (some it.iterator) []
        (iterables env rs) s₂
  /-- The last call of the pass; the one before it has no value that is used. -/
  | next {span : Span} {d : Option VarDecl} {x : Expr} {body : Option Stmt}
      {fuel fuel' fuel'' : Nat} {s s₁ s₂ s₃ s₄ : State} {rs iterators : List Ref} {it : Iteration}
      (hpasses : Relation.ReflTransGen (Turns env (.forEach span d (some x) body))
        { s with depth := s.depth + 1 } s₁)
      (hrun : value env (exec env fuel) (some x) s₁ = .ok rs s₂)
      (hit : iterationOf? env rs = some it)
      (hiterators : iterate env (exec env fuel') (.ofExpr? (some x)) it (iterables env rs) s₂ =
        .ok iterators s₃)
      (hnext : checkNext env (exec env fuel'') (.ofExpr? (some x)) it iterators s₃ = .ok () s₄) :
      UsesCall env (.loop (.forEach span d (some x) body)) s x.pos (some it.next) [] iterators s₄

/-- The interpretation of a piece of a program from the state `s` calls known code and uses the
value.  If the call is not left out, it enters the code with the references `seed` from the state
`s₁`. -/
def UsesCode (env : Env) (t : Task) (s : State) (pos : Pos) (e : Catalog.Entry) (body : Block)
    (seed : RefSet) (s₁ : State) : Prop :=
  ∃ m args receiver s₀ fuel, UsesCall env t s pos m args receiver s₀ ∧ Known env m receiver e body ∧
    bindArgs env (exec env fuel) args e.decl.params (.ofList receiver) s₀ = .ok seed s₁ ∧
    seed.isEmpty = false

/-- Among the pieces of `P`, a call of the declaration `d` with the references `seed` whose value is
used is left out. -/
def LeavesOut (env : Env) (P : Task → State → Prop) (d : DeclId) (seed : RefSet) : Prop :=
  ∃ t s pos e body s₁, P t s ∧ UsesCode env t s pos e body seed s₁ ∧ e.decl.id = d ∧
    isCut env s₁ d seed = true

/-- Among the pieces of `P`, a call of the declaration `d` with the references `seed` whose value is
used gives references. -/
def GivesValue (env : Env) (P : Task → State → Prop) (d : DeclId) (seed : RefSet) : Prop :=
  ∃ t s pos e body s₁ fuel rs s₂, P t s ∧ UsesCode env t s pos e body seed s₁ ∧ e.decl.id = d ∧
    enter env (some pos) d e.cls.sym seed (runMethod env (exec env fuel) e body) s₁ = .ok rs s₂ ∧
    rs ≠ []

/-! ### Two interpretations -/

/-- Two interpretations of a program: one leaves out calls of running declarations, the other one
those beyond a limit on the nesting of calls. -/
structure Comparison where
  world : World
  checked : Bool
  ties : TieOrder
  limit : Nat
  /-- The pieces that the first interpretation may come to. -/
  real : Task → State → Prop
  /-- The pieces that the second one may come to. -/
  bounded : Task → State → Prop

namespace Comparison

variable (C : Comparison)

/-- The surroundings of the interpretation that leaves out running declarations. -/
abbrev realEnv : Env := ⟨C.world.table, C.world.catalog, C.checked, .running, C.ties⟩

/-- The surroundings of the interpretation with a limit on the nesting of calls. -/
abbrev boundedEnv : Env := ⟨C.world.table, C.world.catalog, C.checked, .nesting C.limit, C.ties⟩

/-- The interpretation that leaves out running declarations, with a bound on its steps. -/
abbrev realMode (n : Nat) : Mode := C.world.mode C.checked .running C.ties n

/-- The interpretation with a limit on the nesting of calls, with a bound on its steps. -/
abbrev boundedMode (n : Nat) : Mode := C.world.mode C.checked (.nesting C.limit) C.ties n

/-- The comparison is that of interpretations which come to all that they call, and in which no
value of a call that one leaves out is missed by the other one. -/
structure Fair : Prop where
  closed : C.world.Closed
  oneCode : C.world.OneCode
  real : ∀ t s t' s', C.real t s → Calls C.realEnv t s t' s' → C.real t' s'
  bounded : ∀ t s t' s', C.bounded t s → Calls C.boundedEnv t s t' s' → C.bounded t' s'
  skipped : ∀ d seed, LeavesOut C.realEnv C.real d seed → ¬GivesValue C.boundedEnv C.bounded d seed
  beyond : ∀ d seed, LeavesOut C.boundedEnv C.bounded d seed → ¬GivesValue C.realEnv C.real d seed

/-- Calls of the declaration from the references `seed` find no leak if fewer than `k` calls may be
nested in them. -/
def Safe (k : Nat) (d : DeclId) (seed : RefSet) : Prop :=
  ∀ c, Code C.world c → c.decl = d → ∀ i, i < k → ∀ n (b : State) pos b', b.pending = none →
    b.running.length + 1 + i = C.limit →
    RunsThrough C.bounded (C.boundedMode n) (c.program C.world) (b.called pos d c.cls seed) () b' →
    b'.pending = none

/-- The state `b` of the interpretation with a limit corresponds to the state `s` of the other one:
both see the same references in the same place, there is no leak yet, and the code of the running
calls finds none. -/
structure Matches (s b : State) : Prop where
  refs : b.refs = s.refs
  depth : b.depth = s.depth
  methodClass : b.methodClass = s.methodClass
  pending : b.pending = none
  safe : ∀ d seed, (d, seed) ∈ s.running → C.Safe (C.limit - b.running.length) d seed

variable {C}

/-- The interpretation with a limit has come to the value `a'` in the state `b'` where the other one
has come to `a` in the state `s'`: it has found no leak, and if the result is used it is the
same. -/
structure Agree (used : Prop) {α : Type} (a : α) (s' : State) (a' : α) (b' : State) : Prop where
  pending : b'.pending = none
  depth : b'.depth = s'.depth
  dropped : b'.refs.discardExprs b'.depth = s'.refs.discardExprs s'.depth
  same : used → a' = a ∧ b'.refs = s'.refs

variable (C)

/-- From the states `s` and `b`, the interpretation of the code with a limit agrees with the other
one if that finds no leak. -/
def FollowsFrom (n₀ : Nat) (used : Prop) {α : Type} (x : Mode → Interp α) (s b : State) : Prop :=
  ∀ a s', RunsThrough C.real (C.realMode n₀) x s a s' → s'.pending = none →
    ∀ n a' b', RunsThrough C.bounded (C.boundedMode n) x b a' b' → Agree used a s' a' b'

/-- The interpretation of the code with a limit follows the other one from corresponding states. -/
def Follows (n₀ : Nat) {α : Type} (x : Mode → Interp α) : Prop :=
  ∀ s b, C.world.Tracked s → C.Matches s b → C.FollowsFrom n₀ True x s b

variable {C} {n₀ : Nat} {used used' : Prop} {α β : Type} {E E' : Effects} {p q r : Phase}

/-! ### Ends that agree -/

theorem Agree.of_eq {a : α} {s' b' : State} (hpending : b'.pending = none)
    (hdepth : b'.depth = s'.depth) (hrefs : b'.refs = s'.refs) : Agree used a s' a b' where
  pending := hpending
  depth := hdepth
  dropped := by rw [hrefs, hdepth]
  same _ := ⟨rfl, hrefs⟩

theorem FollowsFrom.mono {x : Mode → Interp α} {s b : State} (h : C.FollowsFrom n₀ used x s b)
    (hused : used' → used) : C.FollowsFrom n₀ used' x s b := by
  intro a s' hrun hp n a' b' hrun'
  have hagree := h a s' hrun hp n a' b' hrun'
  exact { hagree with same := fun hu => hagree.same (hused hu) }

theorem FollowsFrom.of_eq {x y : Mode → Interp α} {s b : State} (h : C.FollowsFrom n₀ used y s b)
    (heq : ∀ m, x m = y m) : C.FollowsFrom n₀ used x s b := by
  obtain rfl : x = y := funext heq
  exact h

/-- Code whose result is dropped follows if the code does up to its result. -/
theorem FollowsFrom.drop {x : Mode → Interp Unit} {s b : State} (h : C.FollowsFrom n₀ used x s b) :
    C.FollowsFrom n₀ True (fun m => x m >>= fun _ => dropResult) s b := by
  rintro _ s' hrun hp n _ b' hrun'
  obtain ⟨_, s₁, hx, ⟨⟩⟩ := hrun.left
  obtain ⟨_, b₁, hx', ⟨⟩⟩ := hrun'.left
  have hagree := h _ s₁ hx hp n _ b₁ hx'
  exact .of_eq hagree.pending hagree.depth hagree.dropped

/-- So does a scope whose result is dropped. -/
theorem FollowsFrom.scope {x : Mode → Interp Unit} {s b : State}
    (h : C.FollowsFrom n₀ used x { s with depth := s.depth + 1 } { b with depth := b.depth + 1 }) :
    C.FollowsFrom n₀ True (fun m => inScope dropResult (x m)) s b := by
  rintro _ s' hrun hp n _ b' hrun'
  obtain ⟨s₁, _, hx, ⟨⟩, rfl⟩ := hrun.of_inScope
  obtain ⟨b₁, _, hx', ⟨⟩, rfl⟩ := hrun'.of_inScope
  have hagree := h _ s₁ hx hp n _ b₁ hx'
  exact .of_eq hagree.pending (congrArg (· - 1) hagree.depth) hagree.dropped

theorem FollowsFrom.promote {x : Mode → Interp Unit} {s b : State}
    (h : C.FollowsFrom n₀ True x { s with depth := s.depth + 1 } { b with depth := b.depth + 1 }) :
    C.FollowsFrom n₀ True (fun m => inScope (promoteResult (C.world.env m)) (x m)) s b := by
  rintro _ s' hrun hp n _ b' hrun'
  obtain ⟨s₁, s₂, hx, hleave, rfl⟩ := hrun.of_inScope
  obtain ⟨b₁, b₂, hx', hleave', rfl⟩ := hrun'.of_inScope
  obtain ⟨-, rfl⟩ := promoteResult_eq_ok.mp hleave
  obtain ⟨-, rfl⟩ := promoteResult_eq_ok.mp hleave'
  have hagree := h _ s₁ hx hp n _ b₁ hx'
  refine .of_eq hagree.pending (congrArg (· - 1) hagree.depth) ?_
  dsimp only
  rw [(hagree.same trivial).2, hagree.depth]

/-- The closure of deferred code is lost with the result. -/
theorem discardExprs_captured (s : State) (before : RefSet) (type : Option ClassId) :
    (s.captured before type).discardExprs s.depth = before.discardExprs s.depth := by
  unfold State.captured
  split
  · exact RefSet.discardExprs_insert rfl
  · rfl

theorem FollowsFrom.later {type : Option ClassId} {x : Mode → Interp Unit} {s b : State}
    (hrefs : b.refs = s.refs) (h : C.FollowsFrom n₀ used x s.deferring b.deferring) :
    C.FollowsFrom n₀ used (fun m => deferred (C.world.env m) type (x m)) s b := by
  rintro _ s' hrun hp n _ b' hrun'
  obtain ⟨s₁, hx, rfl⟩ := hrun.of_deferred
  obtain ⟨b₁, hx', rfl⟩ := hrun'.of_deferred
  have hagree := h _ s₁ hx hp n _ b₁ hx'
  refine ⟨hagree.pending, hagree.depth, ?_, fun hu => ⟨rfl, ?_⟩⟩
  · change (b₁.captured b.refs type).discardExprs b₁.depth =
      (s₁.captured s.refs type).discardExprs s₁.depth
    rw [discardExprs_captured, discardExprs_captured, hrefs, hagree.depth]
  · change b₁.captured b.refs type = s₁.captured s.refs type
    rw [State.captured, State.captured, (hagree.same hu).2, hagree.depth, hrefs]

/-! ### Corresponding states -/

theorem Safe.mono {k k' : Nat} {d : DeclId} {seed : RefSet} (h : C.Safe k d seed)
    (hk : k' ≤ k) : C.Safe k' d seed :=
  fun c hc hd i hi => h c hc hd i (Nat.lt_of_lt_of_le hi hk)

namespace Matches

variable {s s' b b' : State}

theorem tracked (h : C.Matches s b) (hs : C.world.Tracked s) : C.world.Tracked b :=
  fun r hr => hs r (h.refs ▸ hr)

theorem deeper (h : C.Matches s b) :
    C.Matches { s with depth := s.depth + 1 } { b with depth := b.depth + 1 } :=
  { h with depth := congrArg (· + 1) h.depth }

theorem deferring (h : C.Matches s b) : C.Matches s.deferring b.deferring := { h with }

/-- Runs that respect their frames and agree lead to corresponding states. -/
theorem next (h : C.Matches s b) (hs : Frame E s s') (hb : Frame E' b b') {a a' : α}
    (hagree : Agree True a s' a' b') : C.Matches s' b' where
  refs := (hagree.same trivial).2
  depth := hagree.depth
  methodClass := hb.methodClass.trans (h.methodClass.trans hs.methodClass.symm)
  pending := hagree.pending
  safe d seed hmem := by
    rw [hb.running]
    exact h.safe d seed (hs.running ▸ hmem)

/-- Corresponding states at the start of a call that both interpretations enter. -/
theorem called {pos pos' : Pos} {decl : DeclId} {cls : Option ClassId} {seed seed' : RefSet}
    (hseed : seed'.canonical = seed.canonical) (hpending : b.pending = none)
    (hsafe : ∀ d refs, (d, refs) ∈ (decl, seed.canonical) :: s.running →
      C.Safe (C.limit - (b.running.length + 1)) d refs) :
    C.Matches (s.called pos decl cls seed) (b.called pos' decl cls seed') where
  refs := hseed
  depth := rfl
  methodClass := rfl
  pending := hpending
  safe := hsafe

end Matches

/-- A run that ends without a leak has started without one. -/
theorem pending_none_of_frame {s s' : State} (h : Frame E s s') (hp : s'.pending = none) :
    s.pending = none := by
  by_contra hne
  exact hne (h.pending hne ▸ hp)

/-- One program after another follows if the first one does and the second one does from where the
first one ends. -/
theorem followsFrom_bind (hw : C.world.Closed) {x : Mode → Interp α} {f : α → Mode → Interp β}
    {V : α → Prop} {U : β → Prop} (hx : Program C.world E p x V q)
    (hf : ∀ a, V a → Program C.world E' q (f a) U r) (hE : E.Within C.world)
    (hE' : E'.Within C.world) {s b : State} (hs : C.world.Tracked s) (hmatch : C.Matches s b)
    (hfirst : C.FollowsFrom n₀ True x s b)
    (hsecond : ∀ n a s₁ b₁, x (C.realMode n₀) s = .ok a s₁ → x (C.boundedMode n) b = .ok a b₁ →
      V a → C.world.Tracked s₁ → C.Matches s₁ b₁ → C.FollowsFrom n₀ used (f a) s₁ b₁) :
    C.FollowsFrom n₀ used (fun m => x m >>= fun a => f a m) s b := by
  intro c s' hrun hp n c' b' hrun'
  have hreal := exec_lawful hw C.checked .running C.ties n₀
  have hbounded := exec_lawful hw C.checked (.nesting C.limit) C.ties n
  obtain ⟨a, s₁, hx₁, ⟨ha, hs₁, hframe⟩, hf₁⟩ := hrun.of_bind hreal hx hE hs
  obtain ⟨a', b₁, hx₂, ⟨-, -, hframe'⟩, hf₂⟩ := hrun'.of_bind hbounded hx hE (hmatch.tracked hs)
  have hlast := ((hf a ha).lawful hreal hE' s₁ c s' hs₁ hf₁.ends).2.2
  have hagree := hfirst a s₁ hx₁ (pending_none_of_frame hlast hp) n a' b₁ hx₂
  obtain ⟨rfl, -⟩ := hagree.same trivial
  exact hsecond n a' s₁ b₁ hx₁.ends hx₂.ends ha hs₁ (hmatch.next hframe hframe' hagree) c s' hf₁ hp
    n c' b' hf₂

/-! ### Calls -/

section Call

variable {c : Callee} {seed : RefSet} {s b : State}

/-- If code finds no leak, then it finds none with any limit on the calls nested in it.  The
induction is on the limit: where the code calls its own declaration again from the same references,
a smaller limit is left. -/
theorem safe_of_follows (hone : C.world.OneCode) (hc : Code C.world c)
    (hx : C.Follows n₀ (c.program C.world)) {s₁ : State} {pos : Pos}
    (hs : C.world.Tracked (s.called pos c.decl c.cls seed))
    (hrun : RunsThrough C.real (C.realMode n₀) (c.program C.world)
      (s.called pos c.decl c.cls seed) () s₁) (hp : s₁.pending = none) {K : Nat}
    (hold : ∀ d refs, (d, refs) ∈ s.running → C.Safe K d refs) (k : Nat) (hk : k ≤ K) :
    C.Safe k c.decl seed.canonical := by
  induction k with
  | zero => exact fun _ _ _ i hi => absurd hi (Nat.not_lt_zero i)
  | succ k ih =>
    intro c' hc' hd i hi n b pos' b' hpending hlevel hrun'
    have hsmaller := ih (Nat.le_of_succ_le hk)
    rcases Nat.lt_succ_iff_lt_or_eq.mp hi with hlt | rfl
    · exact hsmaller c' hc' hd i hlt n b pos' b' hpending hlevel hrun'
    · obtain ⟨hcls, hprogram⟩ := hone c c' hc hc' hd.symm
      rw [← hcls, ← hprogram] at hrun'
      have hleft : C.limit - (b.running.length + 1) = i := by omega
      have hmatch : C.Matches (s.called pos c.decl c.cls seed)
          (b.called pos' c.decl c.cls seed.canonical) := by
        refine .called ?_ hpending fun d refs hmem => ?_
        · exact RefSet.canonical_eq_of_sameAs (RefSet.sameAs_iff.mpr fun r => RefSet.mem_canonical)
        · rw [hleft]
          rcases List.mem_cons.mp hmem with h | h
          · cases h
            exact hsmaller
          · exact (hold d refs h).mono (Nat.le_of_succ_le hk)
      exact (hx _ _ hs hmatch () s₁ hrun hp n () b' hrun').pending

/-- A call is left out if the declaration is running from the same references. -/
theorem exists_running_of_isCut {d : DeclId} (h : isCut C.realEnv s d seed = true) :
    ∃ refs, (d, refs) ∈ s.running ∧ seed.sameAs refs = true := by
  simp only [isCut, List.any_eq_true] at h
  obtain ⟨⟨d', refs⟩, hmem, h⟩ := h
  simp only [Bool.and_eq_true, beq_iff_eq] at h
  obtain ⟨rfl, hsame⟩ := h
  exact ⟨refs, hmem, hsame⟩

/-- A call follows, up to its value, if its code does.  The values agree as well, unless the call is
left out in one of the interpretations and gives references in the other one. -/
theorem enter_follows (hone : C.world.OneCode) (hc : Code C.world c)
    (hseed : ∀ r ∈ seed, C.world.Tracks r ∧ IsSeed r) (hx : C.Follows n₀ (c.program C.world))
    (hmatch : C.Matches s b) {site : Option Pos} {s' b' : State} {rs rs' : List Ref} {n : Nat}
    (hrun : RunsThrough C.real (C.realMode n₀)
      (fun m => enter (C.world.env m) site c.decl c.cls seed (c.program C.world m)) s rs s')
    (hp : s'.pending = none)
    (hrun' : RunsThrough C.bounded (C.boundedMode n)
      (fun m => enter (C.world.env m) site c.decl c.cls seed (c.program C.world m)) b rs' b') :
    (b'.pending = none ∧ b'.depth = s'.depth ∧ b'.refs = s'.refs) ∧
      (rs' = rs ∨ isCut C.realEnv s c.decl seed = true ∧ rs' ≠ [] ∨
        isCut C.boundedEnv b c.decl seed = true ∧ rs ≠ []) := by
  have hlevel : isCut C.boundedEnv b c.decl seed = false → b.running.length < C.limit := by
    simp [isCut]
  rcases hrun.of_enter with ⟨hcut, rfl, rfl⟩ | ⟨pos, s₁, -, hbody, rfl, rfl⟩
  · obtain ⟨refs, hmem, hsame⟩ := exists_running_of_isCut hcut
    rcases hrun'.of_enter with ⟨-, rfl, rfl⟩ | ⟨pos', b₁, hcut', hbody', rfl, rfl⟩
    · exact ⟨⟨hmatch.pending, hmatch.depth, hmatch.refs⟩, .inl rfl⟩
    · -- the call that is left out is that of a running declaration, which is safe
      have hlt := hlevel hcut'
      have hcalled : b.called pos' c.decl c.cls seed = b.called pos' c.decl c.cls refs := by
        rw [State.called, State.called, RefSet.canonical_eq_of_sameAs hsame]
      rw [hcalled] at hbody'
      have hpending : b₁.pending = none :=
        hmatch.safe c.decl refs hmem c hc rfl (C.limit - b.running.length - 1) (by omega) n b pos'
          b₁ hmatch.pending (by omega) hbody'
      refine ⟨⟨hpending, hmatch.depth, hmatch.refs⟩, ?_⟩
      exact (Decidable.em _).imp id fun hne => .inl ⟨hcut, hne⟩
  · rcases hrun'.of_enter with ⟨hcut', rfl, rfl⟩ | ⟨pos', b₁, hcut', hbody', rfl, rfl⟩
    · refine ⟨⟨hmatch.pending, hmatch.depth, hmatch.refs⟩, ?_⟩
      exact (Decidable.em _).imp id fun hne => .inr ⟨hcut', Ne.symm hne⟩
    · have hlt := hlevel hcut'
      have htracked : C.world.Tracked (s.called pos c.decl c.cls seed) :=
        fun r hr => (hseed r (RefSet.mem_canonical.mp hr)).1
      have hsafe : ∀ d refs, (d, refs) ∈ (c.decl, seed.canonical) :: s.running →
          C.Safe (C.limit - (b.running.length + 1)) d refs := by
        intro d refs hmem
        rcases List.mem_cons.mp hmem with h | h
        · cases h
          exact safe_of_follows hone hc hx htracked hbody hp hmatch.safe _ (by omega)
        · exact (hmatch.safe d refs h).mono (by omega)
      have hagree :=
        hx _ _ htracked (.called rfl hmatch.pending hsafe) () s₁ hbody hp n () b₁ hbody'
      refine ⟨⟨hagree.pending, hmatch.depth, hmatch.refs⟩, .inl ?_⟩
      rw [(hagree.same trivial).2]
      rfl

end Call

end Comparison

end Interp

end EarlyEscape
