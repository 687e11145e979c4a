import EarlyEscape.Proofs.Interp.Reach
import Mathlib.Data.List.Forall2

/-!
# Running calls under another declaration

The calls that are running matter for one thing only: a call of a declaration that is running from
the same references is left out.  A run therefore comes to the same end when a running call is
entered under another declaration, if no call of the first declaration is left out and calls of the
other one do nothing.

## Main definitions

* `Interp.LeftOut` : a call of a declaration is left out in a run.
* `Interp.Callee.DoesNothing` : code that does nothing.
* `Interp.Renamed` : states that differ in the declarations of running calls.
* `Interp.RenamedEnds` : from such states two steps come to such ends.

## Main results

* `Interp.Program.renamed` : what is put together from basic steps leads from such states to such
  states.
* `Interp.exec_renamed` : so does the interpreter.
-/

namespace EarlyEscape.Interp

/-! ### Calls that are left out -/

/-- A call of the declaration is left out, by the log, in a run from the state `s` to the state
`s'`. -/
def LeftOut (d : DeclId) (s s' : State) : Prop :=
  ∃ log seed text, s'.log = s.log ++ log ∧ .skippedCall d seed text ∈ log

section LeftOut

variable {d : DeclId} {s s' s₁ s₂ : State}

theorem LeftOut.of_fst (h : LeftOut d s s₁) (hlog : s₁.log <+: s₂.log) : LeftOut d s s₂ := by
  obtain ⟨log, seed, text, heq, hmem⟩ := h
  obtain ⟨more, hmore⟩ := hlog
  exact ⟨log ++ more, seed, text, by rw [← hmore, heq, List.append_assoc],
    List.mem_append_left _ hmem⟩

theorem LeftOut.of_snd (h : LeftOut d s₁ s₂) (hlog : s.log <+: s₁.log) : LeftOut d s s₂ := by
  obtain ⟨log, seed, text, heq, hmem⟩ := h
  obtain ⟨more, hmore⟩ := hlog
  exact ⟨more ++ log, seed, text, by rw [heq, ← hmore, List.append_assoc],
    List.mem_append_right _ hmem⟩

theorem not_leftOut_of_log_eq (h : s'.log = s.log) : ¬LeftOut d s s' := by
  rintro ⟨log, seed, text, heq, hmem⟩
  obtain rfl : log = [] := by simpa [h] using heq
  cases hmem

theorem leftOut_cut {env : Env} {seed : RefSet} : LeftOut d s (s.cut env d seed) :=
  ⟨_, seed, _, rfl, List.mem_singleton_self _⟩

end LeftOut

/-- The code does nothing. -/
def Callee.DoesNothing (w : World) (c : Callee) : Prop := ∀ m, c.program w m = pure ()

/-! ### States with other running calls -/

theorem any_of_forall₂ {α β : Type} {R : α → β → Prop} {p : α → Bool} {q : β → Bool}
    (hpq : ∀ a b, R a b → p a = true → q b = true) {l : List α} {l' : List β}
    (h : List.Forall₂ R l l') (hany : l.any p = true) : l'.any q = true := by
  induction h with
  | nil => cases hany
  | @cons a b _ _ hab _ ih =>
    rw [List.any_cons, Bool.or_eq_true] at hany ⊢
    exact hany.imp (hpq a b hab) ih

/-- A call of a declaration other than `other` is left out in a state if it is in one whose running
calls are the same, apart from those of `other`. -/
theorem isCut_of_forall₂ {env : Env} {s s' : State} {other decl : DeclId} {seed : RefSet}
    (h : List.Forall₂ (fun call call' => call' = call ∨ call.1 = other) s.running s'.running)
    (hne : decl ≠ other) (hcut : isCut env s decl seed = true) : isCut env s' decl seed = true := by
  unfold isCut at hcut ⊢
  cases hguard : env.guard with
  | nesting limit => rwa [hguard, h.length_eq] at hcut
  | running =>
    rw [hguard] at hcut
    refine any_of_forall₂ (fun call call' hcall hp => ?_) h hcut
    rcases hcall with rfl | hother
    · exact hp
    · rw [Bool.and_eq_true, beq_iff_eq] at hp
      exact absurd (hp.1.symm.trans hother) hne

variable {old new : DeclId}

/-- The states are the same but for the running calls, some of which stand under the declaration
`old` in the first one and under `new` in the second one. -/
structure Renamed (old new : DeclId) (s s' : State) : Prop where
  refs : s'.refs = s.refs
  depth : s'.depth = s.depth
  methodClass : s'.methodClass = s.methodClass
  callStack : s'.callStack = s.callStack
  running : List.Forall₂ (fun call call' => call' = call ∨ call.1 = old ∧ call'.1 = new)
    s.running s'.running
  pending : s'.pending = s.pending

/-- From the two states the steps give the same value and come to such states again, unless a call
of `old` is left out. -/
def RenamedEnds {α : Type} (old new : DeclId) (s s' : State) (x : Interp α) : Prop :=
  ∀ a s₁, x s = .ok a s₁ → ¬LeftOut old s s₁ → ∃ s₁', x s' = .ok a s₁' ∧ Renamed old new s₁ s₁'

namespace Renamed

variable {s s' s₁ s₁' : State} {env : Env}

theorem withRefs (h : Renamed old new s s') (refs : RefSet) :
    Renamed old new { s with refs } { s' with refs } :=
  { h with refs := rfl }

theorem withDepth (h : Renamed old new s s') {d d' : Int} (hd : d' = d) :
    Renamed old new { s with depth := d } { s' with depth := d' } :=
  { h with depth := hd }

theorem deeper (h : Renamed old new s s') :
    Renamed old new { s with depth := s.depth + 1 } { s' with depth := s'.depth + 1 } :=
  h.withDepth (congrArg (· + 1) h.depth)

theorem called (h : Renamed old new s s') (pos : Pos) (decl : DeclId) (cls : Option ClassId)
    (seed : RefSet) :
    Renamed old new (s.called pos decl cls seed) (s'.called pos decl cls seed) where
  refs := rfl
  depth := rfl
  methodClass := rfl
  callStack := congrArg (pos :: ·) h.callStack
  running := .cons (.inl rfl) h.running
  pending := h.pending

theorem back (h : Renamed old new s s') (hpending : s₁'.pending = s₁.pending) :
    Renamed old new (s.back s₁) (s'.back s₁') :=
  { h with pending := hpending }

theorem cut (h : Renamed old new s s') {decl : DeclId} {seed : RefSet} :
    Renamed old new (s.cut env decl seed) (s'.cut env decl seed) :=
  { h with }

theorem deferring (h : Renamed old new s s') : Renamed old new s.deferring s'.deferring :=
  { h with }

theorem resumed (h : Renamed old new s s') (h' : Renamed old new s₁ s₁') (type : Option ClassId) :
    Renamed old new (s.resumed s₁ type) (s'.resumed s₁' type) := by
  refine { h' with refs := ?_ }
  change s₁'.captured s'.refs type = s₁.captured s.refs type
  rw [State.captured, State.captured, h'.refs, h'.depth, h.refs]

/-- A call of a declaration other than `old` that is left out in the first state is left out in the
second one. -/
theorem isCut_of_ne (h : Renamed old new s s') {decl : DeclId} {seed : RefSet} (hne : decl ≠ old)
    (hcut : isCut env s decl seed = true) : isCut env s' decl seed = true :=
  isCut_of_forall₂ (h.running.imp fun _ _ hcall => hcall.imp_right And.left) hne hcut

/-- A call of a declaration other than `new` that is left out in the second state is left out in the
first one. -/
theorem isCut_of_isCut (h : Renamed old new s s') {decl : DeclId} {seed : RefSet}
    (hne : decl ≠ new) (hcut : isCut env s' decl seed = true) : isCut env s decl seed = true :=
  isCut_of_forall₂ (h.running.flip.imp fun _ _ hcall => hcall.imp Eq.symm And.right) hne hcut

end Renamed

/-! ### Steps -/

section Steps

variable {s s' : State} {env : Env}

theorem RenamedEnds.bind {α β : Type} {x : Interp α} {f : α → Interp β}
    (hx : RenamedEnds old new s s' x)
    (hf : ∀ a s₁ s₁', x s = .ok a s₁ → Renamed old new s₁ s₁' → RenamedEnds old new s₁ s₁' (f a))
    (hlog : ∀ a s₁ b s₂, x s = .ok a s₁ → f a s₁ = .ok b s₂ →
      s.log <+: s₁.log ∧ s₁.log <+: s₂.log) :
    RenamedEnds old new s s' (x >>= f) := by
  intro b s₂ hrun hkept
  obtain ⟨a, s₁, hxs, hfs⟩ := bind_eq_ok.mp hrun
  obtain ⟨hfst, hsnd⟩ := hlog a s₁ b s₂ hxs hfs
  obtain ⟨s₁', hxs', hren⟩ := hx a s₁ hxs fun h => hkept (h.of_fst hsnd)
  obtain ⟨s₂', hfs', hren'⟩ := hf a s₁ s₁' hxs hren b s₂ hfs fun h => hkept (h.of_snd hfst)
  exact ⟨s₂', bind_eq_ok.mpr ⟨a, s₁', hxs', hfs'⟩, hren'⟩

theorem RenamedEnds.discard {α : Type} {x : Interp α} (hx : RenamedEnds old new s s' x) :
    RenamedEnds old new s s' (discard x) := by
  rintro ⟨⟩ s₁ hrun hkept
  obtain ⟨a, _, hxs, ⟨⟩⟩ := bind_eq_ok.mp hrun
  obtain ⟨s₁', hxs', hren⟩ := hx a s₁ hxs hkept
  exact ⟨s₁', bind_eq_ok.mpr ⟨a, s₁', hxs', rfl⟩, hren⟩

theorem Renamed.onRefs (h : Renamed old new s s') {α : Type} {ordered : Bool}
    {f : Int → RefSet → α × RefSet} : RenamedEnds old new s s' (onRefs env ordered f) := by
  intro a s₁ hrun _
  obtain ⟨hlist, rfl, rfl⟩ := onRefs_eq_ok.mp hrun
  refine ⟨{ s' with refs := (f s.depth s.refs).2 }, onRefs_eq_ok.mpr ?_, h.withRefs _⟩
  rw [h.refs, h.depth]
  exact ⟨hlist, rfl, rfl⟩

theorem Renamed.leakAt (h : Renamed old new s s') (pos : Option Pos) :
    RenamedEnds old new s s' (leakAt pos) := by
  rintro ⟨⟩ s₁ hrun -
  rcases leakAt_eq_ok.mp hrun with ⟨hleak, rfl⟩ | ⟨hquiet, p, rfl, rfl⟩
  · exact ⟨s', leakAt_eq_ok.mpr (.inl ⟨h.pending ▸ hleak, rfl⟩), h⟩
  · refine ⟨_, leakAt_eq_ok.mpr (.inr ⟨h.pending.trans hquiet, p, rfl, rfl⟩),
      { h with pending := ?_ }⟩
    simp [h.callStack]

theorem RenamedEnds.scope {body : Interp Unit}
    (hbody : RenamedEnds old new { s with depth := s.depth + 1 } { s' with depth := s'.depth + 1 }
      body) : RenamedEnds old new s s' (inScope dropResult body) := by
  rintro ⟨⟩ s₂ hrun hkept
  obtain ⟨s₁, _, hrun₁, ⟨⟩, rfl⟩ := inScope_eq_ok.mp hrun
  obtain ⟨s₁', hrun₁', h⟩ := hbody () s₁ hrun₁ hkept
  refine ⟨{ s₁' with refs := s₁'.refs.discardExprs s₁'.depth, depth := s₁'.depth - 1 },
    inScope_eq_ok.mpr ⟨s₁', _, hrun₁', rfl, rfl⟩, ?_⟩
  rw [h.refs, h.depth]
  exact (h.withRefs _).withDepth rfl

theorem RenamedEnds.promote {body : Interp Unit}
    (hbody : RenamedEnds old new { s with depth := s.depth + 1 } { s' with depth := s'.depth + 1 }
      body) : RenamedEnds old new s s' (inScope (promoteResult env) body) := by
  rintro ⟨⟩ s₃ hrun hkept
  obtain ⟨s₁, s₂, hrun₁, hpromote, rfl⟩ := inScope_eq_ok.mp hrun
  obtain ⟨hlist, rfl⟩ := promoteResult_eq_ok.mp hpromote
  obtain ⟨s₁', hrun₁', h⟩ := hbody () s₁ hrun₁ hkept
  refine ⟨_, inScope_eq_ok.mpr
    ⟨s₁', _, hrun₁', promoteResult_eq_ok.mpr ⟨h.refs ▸ hlist, rfl⟩, rfl⟩, ?_⟩
  rw [h.refs, h.depth]
  exact (h.withRefs _).withDepth rfl

/-- A call is entered in both states or in neither.  Only a call of the declaration `new`, which
does nothing, may be left out in the second state alone. -/
theorem Renamed.enter (h : Renamed old new s s') {site : Option Pos} {decl : DeclId}
    {cls : Option ClassId} {seed : RefSet} {body : Interp Unit} (hseed : ∀ r ∈ seed, IsSeed r)
    (hfree : decl = new → body = pure ())
    (hbody : ∀ pos, RenamedEnds old new (s.called pos decl cls seed) (s'.called pos decl cls seed)
      body) : RenamedEnds old new s s' (enter env site decl cls seed body) := by
  intro rs s₂ hrun hkept
  rcases enter_eq_ok.mp hrun with
    ⟨hcut, rfl, rfl⟩ | ⟨pos, s₁, rfl, hcut, hb, hlist, rfl, rfl⟩
  · have hne : decl ≠ old := fun heq => hkept (heq ▸ leftOut_cut)
    exact ⟨_, enter_eq_ok.mpr (.inl ⟨h.isCut_of_ne hne hcut, rfl, rfl⟩), h.cut⟩
  · cases hcut' : isCut env s' decl seed with
    | true =>
      have hnew : decl = new := by_contra fun hne =>
        Bool.eq_false_iff.mp hcut (h.isCut_of_isCut hne hcut')
      rw [hfree hnew] at hb
      cases hb
      refine ⟨s'.cut env decl seed, enter_eq_ok.mpr (.inl ⟨hcut', ?_, rfl⟩), { h with }⟩
      refine RefSet.find_eq_nil fun r hr hk => ?_
      rcases hseed r (RefSet.mem_canonical.mp hr) with hk' | hk' <;> cases hk.symm.trans hk'
    | false =>
      obtain ⟨s₁', hb', h'⟩ := hbody pos () s₁ hb hkept
      exact ⟨s'.back s₁', enter_eq_ok.mpr (.inr ⟨pos, s₁', rfl, hcut', hb', h'.refs ▸ hlist,
        by rw [h'.refs], rfl⟩), h.back h'.pending⟩

theorem Renamed.deferred (h : Renamed old new s s') {type : Option ClassId} {code : Interp Unit}
    (hcode : RenamedEnds old new s.deferring s'.deferring code) :
    RenamedEnds old new s s' (deferred env type code) := by
  rintro ⟨⟩ s₂ hrun hkept
  obtain ⟨s₁, hc, hlist, rfl⟩ := deferred_eq_ok.mp hrun
  obtain ⟨s₁', hc', h'⟩ := hcode () s₁ hc hkept
  exact ⟨s'.resumed s₁' type, deferred_eq_ok.mpr ⟨s₁', hc', h'.refs ▸ hlist, rfl⟩,
    h.resumed h' type⟩

theorem Renamed.checkLeftovers (h : Renamed old new s s') (stmt : Stmt) :
    RenamedEnds old new s s' (checkLeftovers env stmt) := by
  rintro ⟨⟩ s₁ hrun -
  obtain ⟨rfl, hpass⟩ := checkLeftovers_eq_ok.mp hrun
  refine ⟨s', checkLeftovers_eq_ok.mpr ⟨rfl, ?_⟩, h⟩
  rwa [State.leftover?, h.refs, h.depth]

/-- The passes of a loop end together, because the references are the same. -/
theorem repeated_renamed {E : Effects} {w : World} {body : Interp Unit}
    (hlawful : ∀ s s₁, w.Tracked s → body s = .ok () s₁ → w.Tracked s₁ ∧ Frame E s s₁)
    (hbody : ∀ s s', w.Tracked s → Renamed old new s s' → RenamedEnds old new s s' body) (n : Nat) :
    ∀ s s', w.Tracked s → Renamed old new s s' → RenamedEnds old new s s' (repeated body n) := by
  induction n with
  | zero => exact fun _ _ _ _ _ _ hrun => nomatch hrun
  | succ n ih =>
    rintro s s' hs h ⟨⟩ s₂ hrun hkept
    obtain ⟨s₁, hpass, hrest⟩ := repeated_eq_ok.mp hrun
    obtain ⟨hs₁, hframe⟩ := hlawful s s₁ hs hpass
    have hlog : s₁.log <+: s₂.log := by
      rcases hrest with ⟨-, rfl⟩ | ⟨-, hrest⟩
      · exact List.prefix_rfl
      · exact (repeated_lawful hlawful n s₁ s₂ hs₁ hrest).2.log
    obtain ⟨s₁', hpass', h'⟩ := hbody s s' hs h () s₁ hpass fun hout => hkept (hout.of_fst hlog)
    have hsame : s₁'.refs.sameAs s'.refs = s₁.refs.sameAs s.refs := by rw [h'.refs, h.refs]
    rcases hrest with ⟨hend, rfl⟩ | ⟨hgo, hrest⟩
    · exact ⟨s₁', repeated_eq_ok.mpr ⟨s₁', hpass', .inl ⟨hsame.trans hend, rfl⟩⟩, h'⟩
    · obtain ⟨s₂', hrest', h''⟩ :=
        ih s₁ s₁' hs₁ h' () s₂ hrest fun hout => hkept (hout.of_snd hframe.log)
      exact ⟨s₂', repeated_eq_ok.mpr ⟨s₁', hpass', .inr ⟨hsame.trans hgo, hrest'⟩⟩, h''⟩

end Steps

/-! ### Programs -/

section Programs

variable {w : World} {checked : Bool} {guard : Guard} {ties : TieOrder} {n : Nat}

/-- A program leads from states with other running calls to such states if the pieces inside do. -/
theorem Program.renamed (hw : w.Closed)
    (hfree : ∀ c, Code w c → c.decl = new → c.DoesNothing w)
    (hwalk : ∀ t s s', w.nodes t.node → w.Tracked s → Renamed old new s s' →
      RenamedEnds old new s s' ((w.mode checked guard ties n).walk t))
    {E : Effects} {p q : Phase} {α : Type} {x : Mode → Interp α} {V : α → Prop}
    (h : Program w E p x V q) (hE : E.Within w) :
    ∀ s s', w.Tracked s → Renamed old new s s' →
      RenamedEnds old new s s' (x (w.mode checked guard ties n)) := by
  have hm := exec_lawful hw checked guard ties n
  induction h with
  | pure =>
    rintro s s' - hren _ _ ⟨⟩ -
    exact ⟨s', rfl, hren⟩
  | bind hx hf ihx ihf =>
    intro s s' hs hren
    refine (ihx hE s s' hs hren).bind (fun a s₁ s₁' hrun hren₁ => ?_) fun a s₁ b s₂ hrun hrun' => ?_
    · obtain ⟨ha, hs₁, -⟩ := hx.lawful hm hE s a s₁ hs hrun
      exact ihf a ha hE s₁ s₁' hs₁ hren₁
    · obtain ⟨ha, hs₁, hframe⟩ := hx.lawful hm hE s a s₁ hs hrun
      exact ⟨hframe.log, ((hf a ha).lawful hm hE s₁ b s₂ hs₁ hrun').2.2.log⟩
  | weaken _ _ _ _ ih => exact ih hE
  | run hcover => exact fun s s' hs hren => hwalk _ s s' (hE.now _ hcover.1) hs hren
  | stop => exact fun _ _ _ _ _ _ hrun => nomatch hrun
  | ask _ ih =>
    intro s s' hs hren a s₁ hrun hkept
    obtain ⟨s₁', hrun', hren'⟩ := ih s.methodClass hE s s' hs hren a s₁ hrun hkept
    refine ⟨s₁', ?_, hren'⟩
    rw [← hren.methodClass] at hrun'
    exact hrun'
  | basic => exact fun s s' _ hren => hren.onRefs
  | leakAt => exact fun s s' _ hren => hren.leakAt _
  | scope _ ih =>
    exact fun s s' hs hren => (ih hE { s with depth := s.depth + 1 } _ hs hren.deeper).scope
  | promote _ ih =>
    exact fun s s' hs hren => (ih hE { s with depth := s.depth + 1 } _ hs hren.deeper).promote
  | call he hb _ hin hseed _ _ ih =>
    intro s s' _ hren
    refine hren.enter (fun r hr => (hseed r hr).2)
      (fun hnew => hfree (.method _ _) (.method he hb) hnew _) fun pos => ?_
    exact ih (Effects.within_inside hin) _ _ (fun r hr => (hseed r (RefSet.mem_canonical.mp hr)).1)
      (hren.called pos _ _ _)
  | visit hc _ hin hseed _ _ ih =>
    intro s s' _ hren
    refine (hren.enter (fun r hr => (hseed r hr).2) (fun hnew => hfree _ hc hnew _)
      fun pos => ?_).discard
    exact ih (Effects.within_inside hin) _ _ (fun r hr => (hseed r (RefSet.mem_canonical.mp hr)).1)
      (hren.called pos _ _ _)
  | deferred _ _ _ ih =>
    exact fun s s' hs hren => hren.deferred (ih hE.deferred _ _ hs hren.deferring)
  | check => exact fun s s' _ hren => hren.checkLeftovers _

/-- The interpreter leads from states with other running calls to such states, if the calls that
the second state alone may leave out do nothing. -/
theorem exec_renamed (hw : w.Closed)
    (hfree : ∀ c, Code w c → c.decl = new → c.DoesNothing w) (n : Nat) :
    ∀ t s s', w.nodes t.node → w.Tracked s → Renamed old new s s' →
      RenamedEnds old new s s' (exec ⟨w.table, w.catalog, checked, guard, ties⟩ n t) := by
  induction n with
  | zero => exact fun _ _ _ _ _ _ _ _ hrun => nomatch hrun
  | succ n ih =>
    intro t s s' ht hs hren
    have hE := Effects.within_ofTask hw ht
    by_cases hloop : ∃ stmt, t = .loop stmt
    · obtain ⟨stmt, rfl⟩ := hloop
      have hpass := program_loopPass hw stmt ht
      refine RenamedEnds.scope (repeated_renamed
        (fun s s₁ hs hrun =>
          (hpass.lawful (exec_lawful hw checked guard ties n) hE s () s₁ hs hrun).2)
        (fun s s' hs hren => hpass.renamed hw hfree ih hE s s' hs hren) n _ _ hs hren.deeper)
    · have hstep := program_step hw (fun stmt h => hloop ⟨stmt, h⟩) ht
      exact hstep.renamed hw hfree ih hE s s' hs hren

end Programs

end EarlyEscape.Interp
