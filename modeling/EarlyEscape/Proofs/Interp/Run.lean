import EarlyEscape.Proofs.Interp.Program

/-!
# Runs of steps

What the steps of the interpreter do to a state, with the ways in which they end early.  Runs of
combined steps are read off the runs of their parts.

## Main definitions

* `Interp.State.called`, `Interp.State.back` : the states at the start and after a simulated call.
* `Interp.State.deferring`, `Interp.State.resumed` : the states at the start and after deferred
  code.
* `Interp.State.leftover?` : a result that is left over.

## Main results

* `Interp.bind_eq_ok`, `Interp.inScope_eq_ok`, `Interp.repeated_eq_ok` : when steps in sequence, in
  a scope and in a loop come to their end, and in which state.
* `Interp.enter_eq_ok`, `Interp.deferred_eq_ok` : the same of calls and of deferred code.
* `Interp.onRefs_eq_ok`, `Interp.leakAt_eq_ok`, `Interp.checkLeftovers_eq_ok` : the same of the
  steps that everything else is put together from.
-/

namespace EarlyEscape.Interp

variable {α β : Type}

theorem bind_apply (x : Interp α) (f : α → Interp β) (s : State) :
    (x >>= f) s =
      match x s with
      | .ok a s₁ => f a s₁
      | .error e s₁ => .error e s₁ := by
  change EStateM.bind x f s = _
  unfold EStateM.bind
  cases x s <;> rfl

theorem requireOrder_apply (env : Env) (s : State) :
    requireOrder env s =
      if s.refs.isListable env.table then .ok () s else .error .missing s := by
  change (if s.refs.isListable env.table then pure () else throw .missing : Interp Unit) s = _
  split <;> rfl

theorem onRefs_apply (env : Env) (ordered : Bool) (f : Int → RefSet → α × RefSet) (s : State) :
    onRefs env ordered f s =
      if ordered && !s.refs.isListable env.table then .error .missing s
      else .ok (f s.depth s.refs).1 { s with refs := (f s.depth s.refs).2 } := by
  cases ordered with
  | false => rfl
  | true =>
    simp only [onRefs, bind_apply, requireOrder_apply, if_true, Bool.true_and]
    cases s.refs.isListable env.table <;> rfl

theorem inScope_apply (leave body : Interp Unit) (s : State) :
    inScope leave body s =
      match body { s with depth := s.depth + 1 } with
      | .error e s₁ => .error e s₁
      | .ok _ s₁ =>
        match leave s₁ with
        | .error e s₂ => .error e s₂
        | .ok _ s₂ => .ok () { s₂ with depth := s₂.depth - 1 } := by
  change (body >>= fun _ => leave >>= fun _ => modify fun s => { s with depth := s.depth - 1 })
    { s with depth := s.depth + 1 } = _
  rw [bind_apply]
  cases body { s with depth := s.depth + 1 } with
  | error e s₁ => rfl
  | ok _ s₁ =>
    simp only [bind_apply]
    cases leave s₁ <;> rfl

theorem promoteResult_apply (env : Env) (s : State) :
    promoteResult env s =
      if s.refs.isListable env.table then
        .ok () { s with
          refs := s.refs.replaceExprs s.depth fun r => some (r.asExpr (s.depth - 1)) }
      else .error .missing s := by
  rw [promoteResult, bind_apply, requireOrder_apply]
  cases s.refs.isListable env.table <;> rfl

/-- A leak that was recorded stays, a new one is recorded, and one at a missing node ends the
run. -/
theorem leakAt_cases (pos : Option Pos) (s : State) :
    s.pending ≠ none ∧ leakAt pos s = .ok () s ∨
      s.pending = none ∧ (leakAt pos s = .error .missing s ∨
        ∃ p, pos = some p ∧
          leakAt pos s = .ok () { s with pending := some (p :: s.callStack) }) := by
  obtain ⟨refs, depth, methodClass, targetClass, callStack, running, saved, pending, log⟩ := s
  cases pending with
  | some trail => exact .inl ⟨Option.some_ne_none trail, rfl⟩
  | none =>
    cases pos with
    | none => exact .inr ⟨rfl, .inl rfl⟩
    | some p => exact .inr ⟨rfl, .inr ⟨p, rfl, rfl⟩⟩

/-- The state in which the code of a declaration starts when it is called from the state `s`. -/
def State.called (s : State) (pos : Pos) (decl : DeclId) (cls : Option ClassId) (seed : RefSet) :
    State :=
  { s with
    refs := seed.canonical, depth := 0, methodClass := cls, callStack := pos :: s.callStack
    running := (decl, seed.canonical) :: s.running, saved := s.refs :: s.saved }

/-- The state after a call from the state `s` whose code has ended in the state `callee`. -/
def State.back (s callee : State) : State :=
  { callee with
    refs := s.refs, depth := s.depth, methodClass := s.methodClass, callStack := s.callStack
    running := s.running, saved := s.saved }

/-- The state after a call that was not entered. -/
def State.cut (s : State) (env : Env) (decl : DeclId) (seed : RefSet) : State :=
  { s with log := s.log ++ [.skippedCall decl seed (seed.text env.table env.ties)] }

theorem enter_apply (env : Env) (site : Option Pos) (decl : DeclId) (cls : Option ClassId)
    (seed : RefSet) (body : Interp Unit) (s : State) :
    enter env site decl cls seed body s =
      if isCut env s decl seed then .ok [] (s.cut env decl seed)
      else
        match site with
        | none => .error .missing s
        | some pos =>
          match body (s.called pos decl cls seed) with
          | .error e s₁ => .error e s₁
          | .ok _ s₁ =>
            if s₁.refs.isListable env.table then
              .ok (s₁.refs.find env.table env.ties .returned fun _ => true) (s.back s₁)
            else .error .missing s₁ := by
  change (if isCut env s decl seed then _ else _ : Interp (List Ref)) s = _
  split
  · rfl
  · cases site with
    | none => rfl
    | some pos =>
      change (body >>= fun _ => requireOrder env >>= fun _ => _) (s.called pos decl cls seed) = _
      rw [bind_apply]
      cases hb : body (s.called pos decl cls seed) with
      | error e s₁ => simp only [hb]
      | ok _ s₁ =>
        simp only [hb]
        rw [bind_apply, requireOrder_apply]
        cases s₁.refs.isListable env.table <;> rfl

/-- The state in which deferred code starts. -/
def State.deferring (s : State) : State := { s with saved := s.refs :: s.saved }

/-- The references after deferred code that started with the references `before` has ended in the
state `s`. -/
def State.captured (s : State) (before : RefSet) (type : Option ClassId) : RefSet :=
  if s.refs.toList.any fun r => isLeftBehind s.depth r && decide (r ∉ before) then
    before.insert ⟨.expr s.depth, type, .indirect⟩
  else before

/-- The state after deferred code that started in the state `s` has ended in the state `s₁`. -/
def State.resumed (s s₁ : State) (type : Option ClassId) : State :=
  { s₁ with refs := s₁.captured s.refs type, saved := s.saved }

theorem deferred_apply (env : Env) (type : Option ClassId) (code : Interp Unit) (s : State) :
    deferred env type code s =
      match code s.deferring with
      | .error e s₁ => .error e s₁
      | .ok _ s₁ =>
        if s₁.refs.isListable env.table then .ok () (s.resumed s₁ type)
        else .error .missing s₁ := by
  change (code >>= fun _ => requireOrder env >>= fun _ => _) s.deferring = _
  rw [bind_apply]
  cases code s.deferring with
  | error e s₁ => rfl
  | ok _ s₁ =>
    dsimp only
    rw [bind_apply, requireOrder_apply]
    cases s₁.refs.isListable env.table <;> rfl

/-- A result of an expression that is left over in a state. -/
def State.leftover? (s : State) (env : Env) : Option Ref :=
  (s.refs.sorted env.table env.ties).find? fun r => r.kind == .expr && decide (s.depth ≤ r.depth)

theorem checkLeftovers_apply (env : Env) (stmt : Stmt) (s : State) :
    checkLeftovers env stmt s =
      if env.checked then
        if s.refs.isListable env.table then
          match s.leftover? env with
          | none => .ok () s
          | some r =>
            .error (.internal ⟨stmt.pos,
              .survivor (r.text env.table) (Node.stmt stmt).sortText s.depth⟩) s
        else .error .missing s
      else .ok () s := by
  unfold checkLeftovers
  split
  · rw [bind_apply, requireOrder_apply]
    cases s.refs.isListable env.table with
    | false => rfl
    | true =>
      change (match s.leftover? env with
        | none => pure ()
        | some r => _ : Interp Unit) s = match s.leftover? env with
          | none => _
          | some r => _
      cases s.leftover? env <;> rfl
  · rfl

theorem repeated_apply (body : Interp Unit) (n : Nat) (s : State) :
    repeated body (n + 1) s =
      match body s with
      | .error e s₁ => .error e s₁
      | .ok _ s₁ => if s₁.refs.sameAs s.refs then .ok () s₁ else repeated body n s₁ := by
  change (body >>= fun _ => get >>= fun st =>
    if st.refs.sameAs s.refs then pure () else repeated body n) s = _
  rw [bind_apply]
  cases body s with
  | error e s₁ => rfl
  | ok _ s₁ =>
    change (if s₁.refs.sameAs s.refs then pure () else repeated body n : Interp Unit) s₁ =
      if s₁.refs.sameAs s.refs then .ok () s₁ else repeated body n s₁
    split <;> rfl

/-! ### Runs that come to their end -/

theorem bind_eq_ok {x : Interp α} {f : α → Interp β} {s s' : State} {b : β} :
    (x >>= f) s = .ok b s' ↔ ∃ a s₁, x s = .ok a s₁ ∧ f a s₁ = .ok b s' := by
  rw [bind_apply]
  cases x s with
  | ok a s₁ =>
    refine ⟨fun h => ⟨a, s₁, rfl, h⟩, ?_⟩
    rintro ⟨_, _, ⟨⟩, h⟩
    exact h
  | error e s₁ => simp

theorem onRefs_eq_ok {env : Env} {ordered : Bool} {f : Int → RefSet → α × RefSet} {s s' : State}
    {a : α} :
    onRefs env ordered f s = .ok a s' ↔ (ordered = true → s.refs.isListable env.table = true) ∧
      a = (f s.depth s.refs).1 ∧ s' = { s with refs := (f s.depth s.refs).2 } := by
  rw [onRefs_apply]
  cases ordered <;> cases s.refs.isListable env.table <;> simp [@eq_comm _ a, @eq_comm State s']

theorem requireOrder_eq_ok {env : Env} {s s' : State} {u : Unit} :
    requireOrder env s = .ok u s' ↔ s.refs.isListable env.table = true ∧ s' = s := by
  rw [requireOrder_apply]
  cases s.refs.isListable env.table <;> simp [@eq_comm State s']

theorem takeResult_eq_ok {env : Env} {s s' : State} {rs : List Ref}
    (h : takeResult env s = .ok rs s') :
    (∀ r, r ∈ rs ↔ r ∈ s.refs ∧ r.role = .expr s.depth) ∧
      s' = { s with refs := s.refs.discardExprs s.depth } := by
  obtain ⟨⟨⟩, s₁, horder, ⟨⟩⟩ := bind_eq_ok.mp h
  cases (requireOrder_eq_ok.mp horder).2
  exact ⟨fun r => by simp [RefSet.isExprAt], rfl⟩

theorem relabelResult_eq_ok {env : Env} {f : Ref → Ref} {s s' : State} {u : Unit}
    (h : relabelResult env f s = .ok u s') :
    s' = { s with refs := s.refs.replaceExprs s.depth fun r => some (f r) } := by
  obtain ⟨⟨⟩, s₁, horder, ⟨⟩⟩ := bind_eq_ok.mp h
  cases (requireOrder_eq_ok.mp horder).2
  rfl

theorem takeAll_eq_ok {env : Env} {k : Ref.Kind} {s s' : State} {rs : List Ref} :
    takeAll env k s = .ok rs s' ↔ s.refs.isListable env.table = true ∧
      rs = s.refs.find env.table env.ties k (fun _ => true) ∧
      s' = { s with refs := (s.refs.extract env.table env.ties k fun _ => true).2 } := by
  refine bind_eq_ok.trans ⟨?_, ?_⟩
  · rintro ⟨⟨⟩, s₁, horder, ⟨⟩⟩
    obtain ⟨hlist, rfl⟩ := requireOrder_eq_ok.mp horder
    exact ⟨hlist, rfl, rfl⟩
  · rintro ⟨hlist, rfl, rfl⟩
    exact ⟨(), s, requireOrder_eq_ok.mpr ⟨hlist, rfl⟩, rfl⟩

/-- An expression whose value is dropped comes to its end as one that leaves its value. -/
theorem exec_drop_eq_ok {env : Env} {n : Nat} {e : Expr} {s s' : State} :
    exec env n (.drop e) s = .ok () s' ↔
      ∃ s₁, exec env n (.expr e) s = .ok () s₁ ∧
        s' = { s₁ with refs := s₁.refs.discardExprs s₁.depth } := by
  rw [exec_drop, bind_eq_ok]
  constructor
  · rintro ⟨⟨⟩, s₁, hrun, ⟨⟩⟩
    exact ⟨s₁, hrun, rfl⟩
  · rintro ⟨s₁, hrun, rfl⟩
    exact ⟨(), s₁, hrun, rfl⟩


theorem inScope_eq_ok {leave body : Interp Unit} {s s' : State} {u : Unit} :
    inScope leave body s = .ok u s' ↔
      ∃ s₁ s₂, body { s with depth := s.depth + 1 } = .ok () s₁ ∧ leave s₁ = .ok () s₂ ∧
        s' = { s₂ with depth := s₂.depth - 1 } := by
  rw [inScope_apply]
  cases body { s with depth := s.depth + 1 } with
  | error e s₁ => simp
  | ok _ s₁ => cases hl : leave s₁ <;> simp [hl, @eq_comm State s']

theorem promoteResult_eq_ok {env : Env} {s s' : State} {u : Unit} :
    promoteResult env s = .ok u s' ↔ s.refs.isListable env.table = true ∧
      s' = { s with
        refs := s.refs.replaceExprs s.depth fun r => some (r.asExpr (s.depth - 1)) } := by
  rw [promoteResult_apply]
  cases s.refs.isListable env.table <;> simp [@eq_comm State s']

theorem leakAt_eq_ok {pos : Option Pos} {s s' : State} {u : Unit} :
    leakAt pos s = .ok u s' ↔ (s.pending ≠ none ∧ s' = s) ∨
      (s.pending = none ∧
        ∃ p, pos = some p ∧ s' = { s with pending := some (p :: s.callStack) }) := by
  obtain ⟨refs, depth, methodClass, targetClass, callStack, running, saved, pending, log⟩ := s
  cases pending with
  | some trail =>
    constructor
    · rintro ⟨⟩
      exact .inl ⟨nofun, rfl⟩
    · rintro (⟨-, rfl⟩ | ⟨⟨⟩, -⟩)
      rfl
  | none =>
    cases pos with
    | none =>
      refine iff_of_false nofun ?_
      rintro (⟨h, -⟩ | ⟨-, _, ⟨⟩, -⟩)
      exact h rfl
    | some p =>
      constructor
      · rintro ⟨⟩
        exact .inr ⟨rfl, p, rfl, rfl⟩
      · rintro (⟨h, -⟩ | ⟨-, _, ⟨⟩, rfl⟩)
        · exact absurd rfl h
        · rfl

/-- The passes of a loop end after a pass that leaves the references as they were. -/
theorem repeated_eq_ok {body : Interp Unit} {n : Nat} {s s' : State} {u : Unit} :
    repeated body (n + 1) s = .ok u s' ↔
      ∃ s₁, body s = .ok () s₁ ∧ (s₁.refs.sameAs s.refs = true ∧ s' = s₁ ∨
        s₁.refs.sameAs s.refs = false ∧ repeated body n s₁ = .ok u s') := by
  rw [repeated_apply]
  cases body s with
  | error e s₁ => simp
  | ok _ s₁ => cases hsame : s₁.refs.sameAs s.refs <;> simp [hsame, @eq_comm State s']

/-- A call is left out, or its code comes to its end in a state whose references can be listed. -/
theorem enter_eq_ok {env : Env} {site : Option Pos} {decl : DeclId} {cls : Option ClassId}
    {seed : RefSet} {body : Interp Unit} {s s' : State} {rs : List Ref} :
    enter env site decl cls seed body s = .ok rs s' ↔
      (isCut env s decl seed = true ∧ rs = [] ∧ s' = s.cut env decl seed) ∨
      ∃ pos s₁, site = some pos ∧ isCut env s decl seed = false ∧
        body (s.called pos decl cls seed) = .ok () s₁ ∧ s₁.refs.isListable env.table = true ∧
        rs = s₁.refs.find env.table env.ties .returned (fun _ => true) ∧ s' = s.back s₁ := by
  rw [enter_apply]
  cases isCut env s decl seed with
  | true => simp [@eq_comm State s']
  | false =>
    cases site with
    | none => simp
    | some pos =>
      cases hb : body (s.called pos decl cls seed) with
      | error e s₁ => simp [hb]
      | ok _ s₁ =>
        cases hlist : s₁.refs.isListable env.table <;>
          simp [hb, hlist, @eq_comm State s', @eq_comm _ rs (RefSet.find _ _ _ _ _)]

theorem deferred_eq_ok {env : Env} {type : Option ClassId} {code : Interp Unit} {s s' : State}
    {u : Unit} :
    deferred env type code s = .ok u s' ↔ ∃ s₁, code s.deferring = .ok () s₁ ∧
      s₁.refs.isListable env.table = true ∧ s' = s.resumed s₁ type := by
  rw [deferred_apply]
  cases code s.deferring with
  | error e s₁ => simp
  | ok _ s₁ => cases hlist : s₁.refs.isListable env.table <;> simp [hlist, @eq_comm State s']

/-- A check that passes changes nothing. -/
theorem checkLeftovers_eq_ok {env : Env} {stmt : Stmt} {s s' : State} {u : Unit} :
    checkLeftovers env stmt s = .ok u s' ↔ s' = s ∧ (env.checked = true →
      s.refs.isListable env.table = true ∧ s.leftover? env = none) := by
  rw [checkLeftovers_apply]
  cases env.checked with
  | false => simp [@eq_comm State s']
  | true =>
    cases s.refs.isListable env.table with
    | false => simp
    | true => cases s.leftover? env <;> simp [@eq_comm State s']

end EarlyEscape.Interp
