import EarlyEscape.Proofs.Interp.Frame

/-!
# Results do not outlive statements

The result of an expression is held at the depth of the current scope and is taken, dropped or
stored before the statement around it ends.  This is an invariant of every handler: a statement
starts and ends without a result at the current depth or deeper, and an expression leaves a result
at the current depth at most.  The check at the end of a statement therefore finds nothing.

## Main definitions

* `Interp.State.In` : the state is in a phase.
* `Interp.Stop.IsSurvivor` : the error that the check reports.
* `Interp.Tidy` : a run ends in a phase, or for another reason than a left over result.

## Main results

* `Interp.Program.tidy` : every program leads from phase to phase as it says.
* `Interp.exec_tidy` : statements leave no result behind, wherever they stand.
-/

namespace EarlyEscape.Interp

/-- The results in the state are those that the phase allows. -/
def State.In (s : State) (p : Phase) : Prop := p.Holds s.depth s.refs

theorem State.In.busy {s : State} {p : Phase} (h : s.In p) : s.In .busy := Phase.Holds.busy h

theorem State.In.of_idle {s : State} (h : s.In .idle) (p : Phase) : s.In p := by
  cases p with
  | idle => exact h
  | busy => exact h.busy

/-- The scope inside holds no result yet. -/
theorem State.In.deeper {s : State} {p : Phase} (h : s.In p) :
    State.In { s with depth := s.depth + 1 } .idle :=
  fun r hr k hk => Int.lt_add_one_of_le (h.busy r hr k hk)

/-- A simulated call starts without a result. -/
theorem State.called_in_idle {s : State} {pos : Pos} {decl : DeclId} {cls : Option ClassId}
    {seed : RefSet} (hseed : ∀ r ∈ seed, IsSeed r) : (s.called pos decl cls seed).In .idle := by
  intro r hr k hk
  have hexpr := Ref.kind_of_role_expr hk
  rcases hseed r (RefSet.mem_canonical.mp hr) with h | h <;> rw [h] at hexpr <;> cases hexpr

/-- The error that reports a left over result. -/
def Stop.IsSurvivor : Stop → Prop
  | .internal ⟨_, .survivor ..⟩ => True
  | _ => False

/-- A run that comes to its end leads to the phase `q`; one that ends early does so for another
reason than a left over result. -/
def Tidy {α : Type} (q : Phase) : EStateM.Result Stop State α → Prop
  | .ok _ s => s.In q
  | .error e _ => ¬e.IsSurvivor

/-- The interpreter of the mode leads from the idle phase to the phase of the piece. -/
def Mode.Tidy (w : World) (m : Mode) : Prop :=
  ∀ t s, w.nodes t.node → w.Tracked s → s.In .idle → Interp.Tidy t.result (m.walk t s)

section Tidy

variable {w : World} {m : Mode}

/-- A state that agrees with another one on the results outside is in the same phase. -/
theorem State.In.leave {E : Effects} {s s₁ : State} {p : Phase} {refs : RefSet} (h : s.In p)
    (hframe : Frame E { s with depth := s.depth + 1 } s₁) (hin : s₁.In .busy)
    (hrefs : ∀ r ∈ refs, r ∈ s₁.refs ∧ r.role ≠ .expr s₁.depth) :
    State.In { s₁ with refs, depth := s₁.depth - 1 } p := by
  have hd : s₁.depth = s.depth + 1 := hframe.depth
  have hmem : ∀ r ∈ refs, ∀ k, r.role = .expr k → r ∈ s.refs := by
    intro r hr k hk
    obtain ⟨hr, hne⟩ := hrefs r hr
    have hle : k ≤ s₁.depth := hin r hr k hk
    have hkd : k ≠ s₁.depth := fun h => hne (h ▸ hk)
    exact (hframe.exprs r k hk (show k < s.depth + 1 by omega)).mp hr
  have hd' : s₁.depth - 1 = s.depth := by omega
  rw [State.In]
  dsimp only
  rw [hd']
  refine Phase.Holds.of_exprs h fun r hr hkind => ?_
  cases hrole : r.role with
  | expr k => exact hmem r hr k hrole
  | _ => simp [Ref.kind, hrole, Ref.Role.kind] at hkind

theorem bind_tidy {α β : Type} {x : Interp α} {f : α → Interp β} {s : State} {p q : Phase}
    (hx : Tidy p (x s)) (hf : ∀ a s₁, x s = .ok a s₁ → s₁.In p → Tidy q (f a s₁)) :
    Tidy q ((x >>= f) s) := by
  rw [bind_apply]
  cases hrun : x s with
  | error e s₁ =>
    rw [hrun] at hx
    exact hx
  | ok a s₁ =>
    rw [hrun] at hx
    exact hf a s₁ hrun hx

theorem Tidy.busy {α : Type} {r : EStateM.Result Stop State α} {p : Phase} (h : Tidy p r) :
    Tidy .busy r := by
  cases r with
  | error e s => exact h
  | ok a s => exact State.In.busy h

/-- A scope whose result is dropped keeps the phase. -/
theorem inScope_tidy {E : Effects} {body : Interp Unit} {q : Phase}
    (hframe : ∀ s s', w.Tracked s → body s = .ok () s' → w.Tracked s' ∧ Frame E s s')
    (h : ∀ s, w.Tracked s → s.In .idle → Tidy q (body s)) {p : Phase} :
    ∀ s, w.Tracked s → s.In p → Tidy p (inScope dropResult body s) := by
  intro s hs hp
  have hbody := h { s with depth := s.depth + 1 } hs hp.deeper
  rw [inScope_apply]
  cases hb : body { s with depth := s.depth + 1 } with
  | error e s₁ =>
    rw [hb] at hbody
    exact hbody
  | ok _ s₁ =>
    rw [hb] at hbody
    have hin : s₁.In q := hbody
    have hframe := (hframe { s with depth := s.depth + 1 } s₁ hs hb).2
    change State.In { s₁ with refs := s₁.refs.discardExprs s₁.depth, depth := s₁.depth - 1 } p
    exact hp.leave hframe hin.busy fun r hr => RefSet.mem_discardExprs.mp hr

/-- A scope whose result is handed on leads to the busy phase. -/
theorem promote_tidy {env : Env} {E : Effects} {body : Interp Unit} {s : State} {p q : Phase}
    (hp : s.In p) (hframe : ∀ s₁, body { s with depth := s.depth + 1 } = .ok () s₁ →
      Frame E { s with depth := s.depth + 1 } s₁)
    (h : State.In { s with depth := s.depth + 1 } .idle →
      Tidy q (body { s with depth := s.depth + 1 })) :
    Tidy .busy (inScope (promoteResult env) body s) := by
  have hbody := h hp.deeper
  rw [inScope_apply]
  cases hb : body { s with depth := s.depth + 1 } with
  | error e s₁ =>
    rw [hb] at hbody
    exact hbody
  | ok _ s₁ =>
    rw [hb] at hbody
    have hin : s₁.In q := hbody
    have hd : s₁.depth = s.depth + 1 := (hframe s₁ hb).depth
    simp only [promoteResult_apply]
    cases s₁.refs.isListable env.table with
    | false => exact id
    | true =>
      intro r hr k hk
      change k ≤ s₁.depth - 1
      rcases RefSet.mem_replaceExprs.mp hr with ⟨y, -, -, rfl⟩ | ⟨hr, hne⟩
      · have := Ref.Role.expr.inj hk
        omega
      · have hle : k ≤ s₁.depth := hin.busy r hr k hk
        have hkd : k ≠ s₁.depth := fun h => hne (h ▸ hk)
        omega

/-- Deferred code leads to the busy phase. -/
theorem deferred_tidy {env : Env} {type : Option ClassId} {E : Effects} {code : Interp Unit}
    {s : State} {p q : Phase} (hp : s.In p)
    (hframe : ∀ s₁, code s.deferring = .ok () s₁ → Frame E s.deferring s₁)
    (h : Tidy q (code s.deferring)) : Tidy .busy (deferred env type code s) := by
  rw [deferred_apply]
  cases hc : code s.deferring with
  | error e s₁ =>
    rw [hc] at h
    exact h
  | ok _ s₁ =>
    have hd : s₁.depth = s.depth := (hframe s₁ hc).depth
    dsimp only
    split
    · intro r hr k hk
      change k ≤ s₁.depth
      change r ∈ s₁.captured s.refs type at hr
      unfold State.captured at hr
      split at hr
      · rcases RefSet.mem_insert.mp hr with rfl | hr
        · exact Int.le_of_eq (Ref.Role.expr.inj hk).symm
        · exact hd ▸ hp.busy r hr k hk
      · exact hd ▸ hp.busy r hr k hk
    · exact id

/-- A call keeps the phase. -/
theorem enter_tidy {env : Env} {site : Option Pos} {decl : DeclId} {cls : Option ClassId}
    {seed : RefSet} {body : Interp Unit} {s : State} {p q : Phase} (hp : s.In p)
    (h : ∀ pos, Tidy q (body (s.called pos decl cls seed))) :
    Tidy p (enter env site decl cls seed body s) := by
  rw [enter_apply]
  split
  · exact hp
  · cases site with
    | none => exact id
    | some pos =>
      have hbody := h pos
      cases hb : body (s.called pos decl cls seed) with
      | error e s₁ =>
        simp only [hb] at hbody ⊢
        exact hbody
      | ok _ s₁ =>
        simp only [hb]
        split
        · exact hp
        · exact id

/-- No result is found left over in the idle phase. -/
theorem State.In.leftover? {s : State} (h : s.In .idle) (env : Env) :
    s.leftover? env = none := by
  refine List.find?_eq_none.mpr fun r hr => ?_
  have hr : r ∈ s.refs := RefSet.mem_sorted.mp hr
  cases hrole : r.role with
  | expr k =>
    have : k < s.depth := h r hr k hrole
    simp [Ref.depth, hrole]
    omega
  | _ => simp [Ref.kind, hrole, Ref.Role.kind]

/-- A program leads from phase to phase as it says, and never ends at a left over result. -/
theorem Program.tidy (hm : m.Lawful w) (ht : m.Tidy w) {E : Effects} {p q : Phase} {α : Type}
    {x : Mode → Interp α} {V : α → Prop} (h : Program w E p x V q) (hE : E.Within w) :
    ∀ s, w.Tracked s → s.In p → Tidy q (x m s) := by
  induction h with
  | pure _ => exact fun s _ hp => hp
  | bind hx _ ihx ihf =>
    intro s hs hp
    refine bind_tidy (ihx hE s hs hp) fun a s₁ hrun hin => ?_
    obtain ⟨ha, hs₁, -⟩ := hx.lawful hm hE s a s₁ hs hrun
    exact ihf a ha hE s₁ hs₁ hin
  | @weaken E p p' q q' α x V V' _ hp' hq' _ ih =>
    intro s hs hp
    have hin : s.In p := by
      rcases hp' with rfl | rfl
      · exact hp
      · exact hp.of_idle p
    have hend := ih hE s hs hin
    rcases hq' with rfl | rfl
    · exact hend
    · exact hend.busy
  | @run E t hcover => exact fun s hs hp => ht t s (hE.now t hcover.1) hs hp
  | @stop E p q α V e _ hsurvivor =>
    intro s _ _ hs
    cases e with
    | internal e =>
      obtain ⟨pos, fault⟩ := e
      cases fault with
      | survivor r sort d => exact hsurvivor pos r sort d rfl
      | _ => exact hs
    | _ => exact hs
  | ask _ ih => exact fun s hs hp => ih s.methodClass hE s hs hp
  | basic hf =>
    intro s hs hp
    change Tidy _ (onRefs _ _ _ s)
    rw [onRefs_apply]
    split
    · exact id
    · exact (hf _).phase _ _ hp
  | leakAt =>
    intro s _ hp
    change Tidy _ (Interp.leakAt _ s)
    rcases leakAt_cases _ s with ⟨-, hrun⟩ | ⟨-, hrun | ⟨p, -, hrun⟩⟩
    · rw [hrun]
      exact hp
    · rw [hrun]
      exact id
    · rw [hrun]
      exact hp
  | scope hx ih =>
    exact inScope_tidy (fun s s' hs hrun => (hx.lawful hm hE s () s' hs hrun).2) (ih hE)
  | promote hx ih =>
    intro s hs hp
    exact promote_tidy hp
      (fun s₁ hrun => (hx.lawful hm hE { s with depth := s.depth + 1 } () s₁ hs hrun).2.2)
      fun hin => ih hE { s with depth := s.depth + 1 } hs hin
  | call he hb _ hin hseed hne _ ih =>
    intro s hs hp
    exact enter_tidy hp fun pos => ih (Effects.within_inside hin) _
      (fun r hr => (hseed r (RefSet.mem_canonical.mp hr)).1)
      (State.called_in_idle fun r hr => (hseed r hr).2)
  | visit hc _ hin hseed hne _ ih =>
    intro s hs hp
    refine bind_tidy (enter_tidy hp fun pos => ih (Effects.within_inside hin) _
      (fun r hr => (hseed r (RefSet.mem_canonical.mp hr)).1)
      (State.called_in_idle fun r hr => (hseed r hr).2)) fun _ _ _ hin => hin
  | deferred _ _ hx ih =>
    intro s hs hp
    exact deferred_tidy hp (fun s₁ hrun => (hx.lawful hm hE.deferred s.deferring () s₁ hs hrun).2.2)
      (ih hE.deferred s.deferring hs hp)
  | check =>
    intro s _ hp
    change Tidy _ (checkLeftovers _ _ s)
    rw [checkLeftovers_apply, hp.leftover?]
    split
    · split
      · exact hp
      · exact id
    · exact hp

/-- A loop keeps the phase if its passes start and end in the idle phase. -/
theorem looped_tidy {E : Effects} {body : Interp Unit}
    (hframe : ∀ s s', w.Tracked s → body s = .ok () s' → w.Tracked s' ∧ Frame E s s')
    (h : ∀ s, w.Tracked s → s.In .idle → Tidy .idle (body s)) (n : Nat) {p : Phase} :
    ∀ s, w.Tracked s → s.In p → Tidy p (looped n body s) := by
  refine inScope_tidy (q := .idle) (repeated_lawful hframe n) ?_
  induction n with
  | zero => exact fun _ _ _ => id
  | succ n ih =>
    intro s hs hin
    have hbody := h s hs hin
    rw [repeated_apply]
    cases hb : body s with
    | error e s₁ =>
      rw [hb] at hbody
      exact hbody
    | ok _ s₁ =>
      rw [hb] at hbody
      dsimp only
      split
      · exact hbody
      · exact ih s₁ (hframe s s₁ hs hb).1 hbody

/-- The interpreter leaves no result behind a statement, and at most one behind an expression. -/
theorem exec_tidy (hw : w.Closed) (checked : Bool) (guard : Guard) (ties : TieOrder) (n : Nat) :
    (w.mode checked guard ties n).Tidy w := by
  induction n with
  | zero => exact fun _ _ _ _ _ => id
  | succ n ih =>
    intro t s ht hs hin
    have hE := Effects.within_ofTask hw ht
    have hlawful := exec_lawful hw checked guard ties n
    by_cases hloop : ∃ stmt, t = .loop stmt
    · obtain ⟨stmt, rfl⟩ := hloop
      have hpass := program_loopPass hw stmt ht
      exact looped_tidy (fun s s' hs hrun => (hpass.lawful hlawful hE s () s' hs hrun).2)
        (hpass.tidy hlawful ih hE) n s hs hin
    · have hstep := program_step hw (fun stmt h => hloop ⟨stmt, h⟩) ht
      exact hstep.tidy hlawful ih hE s hs hin

end Tidy

/-- A run of a program from its phase leads to the next one and keeps the frame. -/
theorem Program.steady {env : Env} {E : Effects} {p q : Phase} {α : Type} {x : Mode → Interp α}
    {V : α → Prop} (h : Program (World.all env.table env.catalog) E p x V q) {n : Nat}
    {s s' : State} {a : α} (hin : s.In p)
    (hrun : x ((World.all env.table env.catalog).mode env.checked env.guard env.ties n) s =
      .ok a s') :
    s'.In q ∧ Frame E s s' := by
  have hw := World.all_closed env.table env.catalog
  have htidy := h.tidy (exec_lawful hw env.checked env.guard env.ties n)
    (exec_tidy hw env.checked env.guard env.ties n) ⟨fun _ _ => trivial, fun _ _ => trivial⟩ s
    (World.all_tracked s) hin
  rw [hrun] at htidy
  exact ⟨htidy, (h.of_run hrun).2⟩

/-- So does a run of the interpreter. -/
theorem exec_steady {env : Env} {n : Nat} {t : Task} {s s' : State} (hin : s.In .idle)
    (hrun : exec env n t s = .ok () s') : s'.In t.result ∧ Frame (.ofTask t) s s' := by
  have hw := World.all_closed env.table env.catalog
  have htidy := exec_tidy hw env.checked env.guard env.ties n t s trivial (World.all_tracked s) hin
  change Tidy t.result (exec env n t s) at htidy
  rw [hrun] at htidy
  exact ⟨htidy,
    (exec_lawful hw env.checked env.guard env.ties n t s s' trivial (World.all_tracked s) hrun).2⟩

end EarlyEscape.Interp
