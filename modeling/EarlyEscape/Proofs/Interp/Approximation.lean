import EarlyEscape.Proofs.Interp.Leftovers

/-!
# Runs in two modes

The same code interpreted in two modes from the same state gives the same result, as long as the
modes treat the pieces inside alike.  They may list tied references in different orders if no
references are tied.  When the first mode may also give up, for instance when its
bound on the steps is used up, its run still agrees with that of the second mode unless it gives up.

## Main definitions

* `Interp.Approx` : a run agrees with another one unless it ends early for one of given reasons.
* `Interp.Steady` : what holds whenever code in a phase starts, wherever it stands.

## Main results

* `Interp.Program.approx` : programs agree in two modes if the pieces inside do.
* `Interp.step_approx` : so do the handlers, loops included.
* `Interp.exec_mono` : more steps change no result that was reached.
-/

namespace EarlyEscape.Interp

/-- The first run agrees with the second one, or it ends early for a reason in `bad`. -/
def Approx {α : Type} (bad : Stop → State → Prop) (r r' : EStateM.Result Stop State α) : Prop :=
  r = r' ∨ ∃ e s, r = .error e s ∧ bad e s

section Combinations

variable {α β : Type} {bad : Stop → State → Prop}

theorem Approx.refl {r : EStateM.Result Stop State α} : Approx bad r r := .inl rfl

theorem Approx.error {e : Stop} {s : State} {r : EStateM.Result Stop State α} (h : bad e s) :
    Approx bad (.error e s) r :=
  .inr ⟨e, s, rfl, h⟩

/-- A run that comes to its end agrees with the other one. -/
theorem Approx.ok {a : α} {s : State} {r : EStateM.Result Stop State α}
    (h : Approx bad (.ok a s) r) : r = .ok a s := by
  rcases h with h | ⟨e, s', h, -⟩
  · exact h.symm
  · cases h

/-- Without reasons to end early the runs are the same. -/
theorem Approx.eq {r r' : EStateM.Result Stop State α} (h : Approx (fun _ _ => False) r r') :
    r = r' :=
  h.resolve_right fun ⟨_, _, _, hbad⟩ => hbad

theorem bind_approx {x x' : Interp α} {f f' : α → Interp β} {s : State}
    (hx : Approx bad (x s) (x' s))
    (hf : ∀ a s₁, x s = .ok a s₁ → Approx bad (f a s₁) (f' a s₁)) :
    Approx bad ((x >>= f) s) ((x' >>= f') s) := by
  rw [bind_apply, bind_apply]
  cases hrun : x s with
  | ok a s₁ =>
    rw [hrun] at hx
    rw [hx.ok]
    exact hf a s₁ hrun
  | error e s₁ =>
    rw [hrun] at hx
    rcases hx with h | ⟨_, _, ⟨⟩, hbad⟩
    · rw [← h]
      exact .refl
    · exact .error hbad

theorem inScope_approx {leave body body' : Interp Unit} {s : State}
    (hbody : Approx bad (body { s with depth := s.depth + 1 })
      (body' { s with depth := s.depth + 1 })) :
    Approx bad (inScope leave body s) (inScope leave body' s) := by
  refine bind_approx .refl ?_
  rintro _ _ ⟨⟩
  exact bind_approx hbody fun _ _ _ => .refl

variable {w : World} {m m' : Mode}

theorem deferred_approx {type : Option ClassId} {code code' : Interp Unit} {s : State}
    (hcode : Approx bad (code s.deferring) (code' s.deferring)) :
    Approx bad (deferred (w.env m) type code s) (deferred (w.env m') type code' s) := by
  refine bind_approx .refl ?_
  rintro _ _ ⟨⟩
  refine bind_approx .refl ?_
  rintro _ _ ⟨⟩
  exact bind_approx hcode fun _ _ _ => .refl

/-- References are listed in one way in two modes that have one order of tied references, or if no
references are tied. -/
theorem World.sorted_eq (hties : m.ties = m'.ties ∨ w.Untied) {refs : RefSet}
    (hrefs : ∀ r ∈ refs, w.Tracks r) :
    refs.sorted w.table m.ties = refs.sorted w.table m'.ties := by
  rcases hties with h | h
  · rw [h]
  · exact h.sorted_eq hrefs m.ties m'.ties

/-- The references that the code of a call starts from are those that it is entered with. -/
theorem World.tracked_called {s : State} {pos : Pos} {decl : DeclId} {cls : Option ClassId}
    {seed : RefSet} (hseed : ∀ r ∈ seed, w.Tracks r) : w.Tracked (s.called pos decl cls seed) :=
  fun r hr => hseed r (RefSet.mem_canonical.mp hr)

theorem enter_approx (hguard : m.guard = m'.guard) (hties : m.ties = m'.ties ∨ w.Untied)
    {site : Option Pos} {decl : DeclId} {cls : Option ClassId} {seed : RefSet}
    {body body' : Interp Unit} {s : State} (hseed : ∀ r ∈ seed, w.Tracks r)
    (htracks : ∀ pos s₁, body (s.called pos decl cls seed) = .ok () s₁ → w.Tracked s₁)
    (hbody : ∀ pos, isCut (w.env m) s decl seed = false →
      Approx bad (body (s.called pos decl cls seed)) (body' (s.called pos decl cls seed))) :
    Approx bad (enter (w.env m) site decl cls seed body s)
      (enter (w.env m') site decl cls seed body' s) := by
  have hcut : isCut (w.env m') s decl seed = isCut (w.env m) s decl seed := by
    simp only [isCut, World.env, hguard]
  refine bind_approx .refl ?_
  rintro _ _ ⟨⟩
  rw [hcut]
  split
  · have htext : seed.text w.table m.ties = seed.text w.table m'.ties := by
      simp only [RefSet.text, RefSet.texts?, w.sorted_eq hties hseed]
    simp only [World.env, htext]
    exact .refl
  · next h =>
    cases site with
    | none => exact .refl
    | some pos =>
      refine bind_approx .refl ?_
      rintro _ _ ⟨⟩
      refine bind_approx (hbody pos (by simpa using h)) fun _ s₁ hrun => ?_
      have hs₁ : w.Tracked s₁ := htracks pos s₁ hrun
      refine bind_approx .refl fun _ s₂ hs₂ => ?_
      obtain rfl : s₁ = s₂ := by
        rw [requireOrder_apply] at hs₂
        split at hs₂
        · cases hs₂
          rfl
        · cases hs₂
      refine bind_approx .refl ?_
      rintro _ _ ⟨⟩
      refine bind_approx .refl ?_
      rintro _ _ ⟨⟩
      simp only [World.env, RefSet.find, w.sorted_eq hties hs₁]
      exact .refl

/-- The passes of two loops agree if single passes do, and the second loop may take more passes. -/
theorem repeated_approx {body body' : Interp Unit} {I : State → Prop} {n n' : Nat} (hn : n ≤ n')
    (hbad : n < n' → ∀ s, bad .exhausted s)
    (hI : ∀ s s', I s → body s = .ok () s' → I s')
    (hbody : ∀ s, I s → Approx bad (body s) (body' s)) :
    ∀ s, I s → Approx bad (repeated body n s) (repeated body' n' s) := by
  induction n generalizing n' with
  | zero =>
    intro s _
    rcases Nat.eq_zero_or_pos n' with rfl | hpos
    · exact .refl
    · exact .error (hbad hpos s)
  | succ n ih =>
    intro s hs
    obtain ⟨k, rfl⟩ : ∃ k, n' = k + 1 := ⟨n' - 1, by omega⟩
    refine bind_approx .refl ?_
    rintro _ _ ⟨⟩
    refine bind_approx (hbody s hs) fun _ s₁ hrun => bind_approx .refl ?_
    rintro _ _ ⟨⟩
    change Approx bad ((if s₁.refs.sameAs s.refs then _ else _ : Interp Unit) s₁)
      ((if s₁.refs.sameAs s.refs then _ else _ : Interp Unit) s₁)
    split
    · exact .refl
    · exact ih (Nat.le_of_succ_le_succ hn) (fun h => hbad (Nat.succ_lt_succ h)) s₁
        (hI s s₁ hs hrun)

end Combinations

/-! ### Programs -/

/-- `I p s` holds at the start and after every program from the phase `p`, at the start of a scope
inside, of deferred code and of every simulated call. -/
structure Steady (w : World) (m : Mode) (I : Phase → State → Prop) : Prop where
  of_idle : ∀ p s, I .idle s → I p s
  program : ∀ {E p q} {α : Type} {x : Mode → Interp α} {V : α → Prop}, Program w E p x V q →
    E.Within w → ∀ s a s', w.Tracked s → I p s → x m s = .ok a s' → I q s'
  deeper : ∀ p s, I p s → I .idle { s with depth := s.depth + 1 }
  deferring : ∀ p s, w.Tracked s → I p s → I p s.deferring
  called : ∀ p s pos c seed, w.Tracked s → I p s → isCut (w.env m) s c.decl seed = false →
    Code w c → (∀ r ∈ seed, w.Tracks r ∧ IsSeed r) → seed.isEmpty = false →
    I .idle (s.called pos c.decl c.cls seed)

theorem steady_true {w : World} {m : Mode} : Steady w m fun _ _ => True := by
  constructor <;> intros <;> trivial

section Program

variable {w : World} {m : Mode} {bad : Stop → State → Prop} {I : Phase → State → Prop}

/-- A program agrees in two modes if the pieces inside and the checks do. -/
theorem Program.approx (m' : Mode) (hm : m.Lawful w) (hI : Steady w m I)
    (hguard : m.guard = m'.guard) (hties : m.ties = m'.ties ∨ w.Untied)
    (hcheck : ∀ stmt s, I .idle s →
      Approx bad (checkLeftovers (w.env m) stmt s) (checkLeftovers (w.env m') stmt s))
    (hwalk : ∀ t s, w.nodes t.node → w.Tracked s → I .idle s →
      Approx bad (m.walk t s) (m'.walk t s))
    {E : Effects} {p q : Phase} {α : Type} {x : Mode → Interp α} {V : α → Prop}
    (h : Program w E p x V q) (hE : E.Within w) :
    ∀ s, w.Tracked s → I p s → Approx bad (x m s) (x m' s) := by
  induction h with
  | pure => exact fun _ _ _ => .refl
  | bind hx _ ihx ihf =>
    intro s hs hp
    refine bind_approx (ihx hE s hs hp) fun a s₁ hrun => ?_
    obtain ⟨ha, hs₁, -⟩ := hx.lawful hm hE s a s₁ hs hrun
    exact ihf a ha hE s₁ hs₁ (hI.program hx hE s a s₁ hs hp hrun)
  | weaken _ hp' _ _ ih =>
    intro s hs hp
    rcases hp' with rfl | rfl
    · exact ih hE s hs hp
    · exact ih hE s hs (hI.of_idle _ s hp)
  | run hcover => exact fun s hs hp => hwalk _ s (hE.now _ hcover.1) hs hp
  | stop => exact fun _ _ _ => .refl
  | ask _ ih => exact fun s hs hp => ih s.methodClass hE s hs hp
  | basic _ hsame =>
    intro s hs _
    rcases hties with h | h
    · simp only [h]
      exact .refl
    · refine .inl ?_
      simp only [onRefs_apply, hsame h s.depth s.refs hs m.ties m'.ties]
      rfl
  | leakAt => exact fun _ _ _ => .refl
  | scope _ ih =>
    intro s hs hp
    exact inScope_approx (ih hE { s with depth := s.depth + 1 } hs (hI.deeper _ s hp))
  | promote _ ih =>
    intro s hs hp
    exact inScope_approx (ih hE { s with depth := s.depth + 1 } hs (hI.deeper _ s hp))
  | call he hb _ hin hseed hne hx ih =>
    intro s hs hp
    have hrefs := fun r hr => (hseed r hr).1
    refine enter_approx hguard hties hrefs (fun pos s₁ hrun =>
      (hx.lawful hm (Effects.within_inside hin) _ () s₁ (w.tracked_called hrefs) hrun).2.1)
      fun pos hcut => ih (Effects.within_inside hin) _ (w.tracked_called hrefs) ?_
    exact hI.called _ s pos (.method _ _) _ hs hp hcut (.method he hb) hseed hne
  | visit hc _ hin hseed hne hx ih =>
    intro s hs hp
    have hrefs := fun r hr => (hseed r hr).1
    refine bind_approx (enter_approx hguard hties hrefs (fun pos s₁ hrun =>
      (hx.lawful hm (Effects.within_inside hin) _ () s₁ (w.tracked_called hrefs) hrun).2.1)
      fun pos hcut => ih (Effects.within_inside hin) _ (w.tracked_called hrefs) ?_)
      fun _ _ _ => .refl
    exact hI.called _ s pos _ _ hs hp hcut hc hseed hne
  | deferred _ _ _ ih =>
    intro s hs hp
    exact deferred_approx (ih hE.deferred s.deferring hs (hI.deferring _ s hs hp))
  | check => exact fun s _ hp => hcheck _ s hp

/-- The handlers agree in two modes if the pieces inside and the checks do; in the second mode loops
may take more passes. -/
theorem step_approx (m' : Mode) (hw : w.Closed) (hm : m.Lawful w) (hI : Steady w m I)
    (hguard : m.guard = m'.guard) (hties : m.ties = m'.ties ∨ w.Untied)
    (hpasses : m.passes ≤ m'.passes) (hbad : m.passes < m'.passes → ∀ s, bad .exhausted s)
    (hcheck : ∀ stmt s, I .idle s →
      Approx bad (checkLeftovers (w.env m) stmt s) (checkLeftovers (w.env m') stmt s))
    (hwalk : ∀ t s, w.nodes t.node → w.Tracked s → I .idle s →
      Approx bad (m.walk t s) (m'.walk t s))
    (t : Task) (ht : w.nodes t.node) (s : State) (hs : w.Tracked s) (hp : I .idle s) :
    Approx bad (step (w.env m) m.walk m.passes t s) (step (w.env m') m'.walk m'.passes t s) := by
  have hE := Effects.within_ofTask hw ht
  by_cases hloop : ∃ stmt, t = .loop stmt
  · obtain ⟨stmt, rfl⟩ := hloop
    have hpass := program_loopPass hw stmt ht
    refine inScope_approx (repeated_approx (I := fun s => w.Tracked s ∧ I .idle s) hpasses hbad
      ?_ ?_ { s with depth := s.depth + 1 } ⟨hs, hI.deeper _ s hp⟩)
    · rintro s s' ⟨hs, hp⟩ hrun
      exact ⟨(hpass.lawful hm hE s () s' hs hrun).2.1, hI.program hpass hE s () s' hs hp hrun⟩
    · exact fun s hs => hpass.approx m' hm hI hguard hties hcheck hwalk hE s hs.1 hs.2
  · have hstep := program_step hw (fun stmt h => hloop ⟨stmt, h⟩) ht
    exact hstep.approx m' hm hI hguard hties hcheck hwalk hE s hs hp

end Program

/-- The bound on the steps is used up. -/
def OutOfSteps (e : Stop) (_ : State) : Prop := e = .exhausted

/-- A run that does not use up its bound on the steps gives the same result with a larger bound. -/
theorem exec_mono (env : Env) {n n' : Nat} (hn : n ≤ n') (t : Task) (s : State) :
    Approx OutOfSteps (exec env n t s) (exec env n' t s) := by
  have hw := World.all_closed env.table env.catalog
  induction n generalizing n' t s with
  | zero => exact .error rfl
  | succ n ih =>
    obtain ⟨k, rfl⟩ : ∃ k, n' = k + 1 := ⟨n' - 1, by omega⟩
    have hn : n ≤ k := Nat.le_of_succ_le_succ hn
    let M := (World.all env.table env.catalog).mode env.checked env.guard env.ties
    have hM : (M n).Lawful _ := exec_lawful hw env.checked env.guard env.ties n
    change Approx _ (step ((World.all _ _).env (M n)) (M n).walk (M n).passes t s)
      (step ((World.all _ _).env (M k)) (M k).walk (M k).passes t s)
    exact step_approx (M k) hw hM steady_true rfl (.inl rfl) hn (fun _ _ => rfl)
      (fun _ _ _ => .refl) (fun t s _ _ _ => ih hn t s) t trivial s (World.all_tracked s) trivial

/-- A run that comes to its end does so with a larger bound on the steps. -/
theorem exec_of_le {env : Env} {n n' : Nat} {t : Task} {s s' : State} (hn : n ≤ n')
    (h : exec env n t s = .ok () s') : exec env n' t s = .ok () s' := by
  have happrox := exec_mono env hn t s
  rw [h] at happrox
  exact happrox.ok

/-- Runs that come to their end do so in one state, whatever their bounds on the steps. -/
theorem exec_unique {env : Env} {n n' : Nat} {t : Task} {s s₁ s₂ : State}
    (h₁ : exec env n t s = .ok () s₁) (h₂ : exec env n' t s = .ok () s₂) : s₁ = s₂ := by
  cases (exec_of_le (Nat.le_max_left n n') h₁).symm.trans (exec_of_le (Nat.le_max_right n n') h₂)
  rfl

end EarlyEscape.Interp
