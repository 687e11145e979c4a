import EarlyEscape.Proofs.Interp.Loops

/-!
# Where a leak is recorded

A run that records a leak does so in one of three ways: by a step of its own, in a piece inside that
it comes to, or in a piece of the code of a call that it enters.  The trail of the leak is then made
up of the position of the step and of the positions of the calls around it.

## Main definitions

* `Interp.Records` : a run records the leak with a trail.
* `Interp.Blamed` : the three ways to do so.

## Main results

* `Interp.Program.blamed` : every program that records a leak does so in one of these ways.
* `Interp.repeated_blamed` : so do the passes of a loop.
-/

namespace EarlyEscape.Interp

/-! ### Runs that record a leak -/

/-- The run starts without a leak and comes to its end with the one of the trail. -/
def Records {α : Type} (x : Interp α) (s : State) (trail : Trail) : Prop :=
  s.pending = none ∧ ∃ a s', x s = .ok a s' ∧ s'.pending = some trail

/-- A leak that one step after another records is recorded by the first one, or by the second one
when the first one has recorded none. -/
theorem Records.bind {α β : Type} {x : Interp α} {f : α → Interp β} {s : State} {trail : Trail}
    (h : Records (x >>= f) s trail)
    (hkeep : ∀ a s₁ b s', x s = .ok a s₁ → f a s₁ = .ok b s' → s₁.pending ≠ none →
      s'.pending = s₁.pending) :
    Records x s trail ∨ ∃ a s₁, x s = .ok a s₁ ∧ Records (f a) s₁ trail := by
  obtain ⟨hquiet, b, s', hrun, htrail⟩ := h
  obtain ⟨a, s₁, hx, hf⟩ := bind_eq_ok.mp hrun
  by_cases hp : s₁.pending = none
  · exact .inr ⟨a, s₁, hx, hp, b, s', hf, htrail⟩
  · refine .inl ⟨hquiet, a, s₁, hx, ?_⟩
    rw [← hkeep a s₁ b s' hx hf hp]
    exact htrail

/-- How code with the effects `E` has recorded the leak with the trail. -/
inductive Blamed (w : World) (m : Mode) (E : Effects) {α : Type} (x : Mode → Interp α) (s : State)
    (trail : Trail) : Prop
  /-- By a step of its own. -/
  | leak {pos : Pos} (hpos : E.leaks (some pos)) (htrail : trail = pos :: s.callStack)
  /-- In a piece inside. -/
  | inside {t : Task} {s₁ : State} (hin : E.now t ∨ E.later t.node)
      (hstack : s₁.callStack = s.callStack) (hrunning : s₁.running = s.running)
      (hrecords : Records (m.walk t) s₁ trail) (hcomes : m.Comes x s t s₁)
  /-- In the code of a call. -/
  | call {pos : Pos} {c : Callee} {seed : RefSet} {t : Task} {s₁ : State}
      (hsite : E.enters (some pos) c) (hin : c.Holds w.table t.node)
      (hstack : s₁.callStack = pos :: s.callStack)
      (hrunning : s₁.running = (c.decl, seed) :: s.running)
      (hrecords : Records (m.walk t) s₁ trail) (hcomes : m.Comes x s t s₁)

namespace Blamed

variable {w : World} {m : Mode} {E E' : Effects} {α β : Type} {x : Mode → Interp α}
  {y : Mode → Interp β} {s s₁ : State} {trail : Trail}

/-- Code that comes to all that other code at the same place comes to has recorded what that has. -/
theorem lift (h : Blamed w m E x s₁ trail) (hstack : s₁.callStack = s.callStack)
    (hrunning : s₁.running = s.running)
    (hcomes : ∀ t s', m.Comes x s₁ t s' → m.Comes y s t s') : Blamed w m E y s trail := by
  cases h with
  | leak hpos htrail => exact .leak hpos (hstack ▸ htrail)
  | inside hin hstack' hrunning' hrecords h =>
    exact .inside hin (hstack'.trans hstack) (hrunning'.trans hrunning) hrecords (hcomes _ _ h)
  | call hsite hin hstack' hrunning' hrecords h =>
    exact .call hsite hin (hstack ▸ hstack') (hrunning ▸ hrunning') hrecords (hcomes _ _ h)

/-- Code with more effects has recorded the same. -/
theorem mono (h : Blamed w m E x s trail)
    (hin : ∀ t, E.now t ∨ E.later t.node → E'.now t ∨ E'.later t.node)
    (hleaks : ∀ pos, E.leaks (some pos) → E'.leaks (some pos))
    (henters : ∀ pos c, E.enters (some pos) c → E'.enters (some pos) c) :
    Blamed w m E' x s trail := by
  cases h with
  | leak hpos htrail => exact .leak (hleaks _ hpos) htrail
  | inside h hstack hrunning hrecords hcomes =>
    exact .inside (hin _ h) hstack hrunning hrecords hcomes
  | call hsite h hstack hrunning hrecords hcomes =>
    exact .call (henters _ _ hsite) h hstack hrunning hrecords hcomes

theorem of_eq {y : Mode → Interp α} (h : Blamed w m E y s trail) (heq : ∀ m, x m = y m) :
    Blamed w m E x s trail := by
  obtain rfl : x = y := funext heq
  exact h

theorem of_bind_left {f : α → Mode → Interp β} (h : Blamed w m E x s trail) :
    Blamed w m E (fun m => x m >>= fun a => f a m) s trail :=
  h.lift rfl rfl fun _ _ hcomes => hcomes.of_bind

theorem of_inScope {leave : Mode → Interp Unit} {x : Mode → Interp Unit}
    (h : Blamed w m E x { s with depth := s.depth + 1 } trail) :
    Blamed w m E (fun m => inScope (leave m) (x m)) s trail :=
  h.lift rfl rfl fun _ _ hcomes => hcomes.of_inScope

/-- What code records after a program, if that has recorded nothing. -/
theorem of_bind_right {p q : Phase} {V : α → Prop} (hx : Program w E' p x V q) (hm : m.Lawful w)
    (hE : E'.Within w) (hs : w.Tracked s) {a : α} (hrun : x m s = .ok a s₁)
    {f : α → Mode → Interp β} (h : Blamed w m E (f a) s₁ trail) :
    Blamed w m E (fun m => x m >>= fun a => f a m) s trail := by
  obtain ⟨-, -, hframe⟩ := hx.lawful hm hE s a s₁ hs hrun
  exact h.lift hframe.callStack hframe.running fun _ _ => hx.comes_bind hm hE hs hrun

/-- What the code of a call records is recorded in that call. -/
theorem of_enter {pos : Pos} {c : Callee} {seed : RefSet} {x : Mode → Interp Unit}
    (hsite : E.enters (some pos) c) (hcut : isCut (w.env m) s c.decl seed = false)
    (h : Blamed w m (.inside (c.Holds w.table)) x (s.called pos c.decl c.cls seed) trail) :
    Blamed w m E (fun m => enter (w.env m) (some pos) c.decl c.cls seed (x m)) s trail := by
  cases h with
  | leak hpos _ => cases hpos
  | call hsite _ _ _ _ _ => cases hsite
  | inside hin hstack hrunning hrecords hcomes =>
    exact .call hsite (or_self_iff.mp hin) hstack hrunning hrecords (hcomes.of_enter hcut)

end Blamed

/-! ### Programs -/

section Programs

variable {w : World} {m : Mode} {trail : Trail}

/-- A run that ends where it started or changes the references alone records no leak. -/
theorem not_records {α : Type} {x : Interp α} {s : State}
    (h : ∀ a s', x s = .ok a s' → s'.pending = s.pending) : ¬Records x s trail := by
  rintro ⟨hquiet, a, s', hrun, htrail⟩
  rw [h a s' hrun, hquiet] at htrail
  cases htrail

theorem Records.deeper {leave body : Interp Unit} {s : State}
    (hleave : ∀ s s', leave s = .ok () s' → s'.pending = s.pending)
    (h : Records (inScope leave body) s trail) :
    Records body { s with depth := s.depth + 1 } trail := by
  obtain ⟨hquiet, _, s', hrun, htrail⟩ := h
  obtain ⟨s₁, s₂, hbody, hleft, rfl⟩ := inScope_eq_ok.mp hrun
  exact ⟨hquiet, (), s₁, hbody, (hleave s₁ s₂ hleft).symm.trans htrail⟩

theorem pending_dropResult (s s' : State) (h : dropResult s = .ok () s') :
    s'.pending = s.pending := by
  cases h
  rfl

theorem pending_promoteResult (env : Env) (s s' : State) (h : promoteResult env s = .ok () s') :
    s'.pending = s.pending := by
  obtain ⟨-, rfl⟩ := promoteResult_eq_ok.mp h
  rfl

/-- A call that records a leak is entered, and its code records the leak. -/
theorem Records.called {env : Env} {site : Option Pos} {decl : DeclId} {cls : Option ClassId}
    {seed : RefSet} {body : Interp Unit} {s : State}
    (h : Records (enter env site decl cls seed body) s trail) :
    ∃ pos, site = some pos ∧ isCut env s decl seed = false ∧
      Records body (s.called pos decl cls seed) trail := by
  obtain ⟨hquiet, rs, s', hrun, htrail⟩ := h
  rcases enter_eq_ok.mp hrun with ⟨-, -, rfl⟩ | ⟨pos, s₁, hsite, hcut, hbody, -, -, rfl⟩
  · cases hquiet.symm.trans htrail
  · exact ⟨pos, hsite, hcut, hquiet, (), s₁, hbody, htrail⟩

theorem Records.of_discard {α : Type} {x : Interp α} {s : State}
    (h : Records (discard x) s trail) : Records x s trail := by
  obtain ⟨hquiet, _, s', hrun, htrail⟩ := h
  obtain ⟨a, _, hx, ⟨⟩⟩ := bind_eq_ok.mp hrun
  exact ⟨hquiet, a, _, hx, htrail⟩

/-- One program after another records a leak as its parts do.  The effects of the second part may
depend on the run of the first one. -/
theorem blamed_bind (hm : m.Lawful w) {E E' : Effects} {p q r : Phase} {α β : Type}
    {x : Mode → Interp α} {f : α → Mode → Interp β} {V : α → Prop} {U : β → Prop}
    (hE : E.Within w) (hE' : E'.Within w) (hx : Program w E p x V q)
    (hf : ∀ a, V a → Program w E' q (f a) U r) {s : State} (hs : w.Tracked s)
    (hfirst : Records (x m) s trail → Blamed w m E x s trail)
    (hsecond : ∀ a s₁, x m s = .ok a s₁ → V a → w.Tracked s₁ → Records (f a m) s₁ trail →
      Blamed w m E (f a) s₁ trail)
    (h : Records (x m >>= fun a => f a m) s trail) :
    Blamed w m E (fun m => x m >>= fun a => f a m) s trail := by
  have hlawful := fun a s₁ => hx.lawful hm hE s a s₁ hs
  have hkeep := fun a s₁ b s' hrun hrun' => ((hf a (hlawful a s₁ hrun).1).lawful hm hE' s₁ b s'
    (hlawful a s₁ hrun).2.1 hrun').2.2.pending
  rcases h.bind hkeep with h | ⟨a, s₁, hrun, h⟩
  · exact (hfirst h).of_bind_left
  · obtain ⟨ha, hs₁, -⟩ := hlawful a s₁ hrun
    exact .of_bind_right hx hm hE hs hrun (hsecond a s₁ hrun ha hs₁ h)

/-- A program that records a leak does so by a step of its own, in a piece inside or in the code of
a call. -/
theorem Program.blamed (hm : m.Lawful w) {E : Effects} {p q : Phase} {α : Type}
    {x : Mode → Interp α} {V : α → Prop} (h : Program w E p x V q) (hE : E.Within w) :
    ∀ s, w.Tracked s → Records (x m) s trail → Blamed w m E x s trail := by
  induction h with
  | pure =>
    refine fun s _ h => absurd h (not_records ?_)
    rintro _ _ ⟨⟩
    rfl
  | bind hx hf ihx ihf =>
    exact fun s hs => blamed_bind hm hE hE hx hf hs (ihx hE s hs) fun a s₁ _ ha => ihf a ha hE s₁
  | weaken _ _ _ _ ih => exact ih hE
  | @run E t hcover =>
    exact fun s _ h => .inside (.inl hcover.1) rfl rfl h fun e => ⟨s, planted_walk_self⟩
  | stop =>
    rintro s - ⟨-, _, _, hrun, -⟩
    cases hrun
  | ask _ ih => exact fun s hs h => (ih s.methodClass hE s hs h).lift rfl rfl fun _ _ => id
  | basic =>
    refine fun s _ h => absurd h (not_records fun a s' hrun => ?_)
    obtain ⟨-, -, rfl⟩ := onRefs_eq_ok.mp hrun
    rfl
  | leakAt hpos =>
    rintro s - ⟨hquiet, _, s', hrun, htrail⟩
    rcases leakAt_eq_ok.mp hrun with ⟨hp, -⟩ | ⟨-, pos, rfl, rfl⟩
    · exact absurd hquiet hp
    · exact .leak hpos (Option.some.inj htrail).symm
  | scope _ ih =>
    intro s hs h
    exact .of_inScope (ih hE _ hs (h.deeper pending_dropResult))
  | promote _ ih =>
    intro s hs h
    exact .of_inScope (ih hE _ hs (h.deeper (pending_promoteResult _)))
  | call he hb hsite hin hseed _ _ ih =>
    intro s _ h
    obtain ⟨pos, rfl, hcut, hbody⟩ := h.called
    exact .of_enter hsite hcut (ih (Effects.within_inside hin) _
      (fun r hr => (hseed r (RefSet.mem_canonical.mp hr)).1) hbody)
  | visit hc hsite hin hseed _ _ ih =>
    intro s _ h
    obtain ⟨pos, rfl, hcut, hbody⟩ := h.of_discard.called
    have hcall := Blamed.of_enter hsite hcut (ih (Effects.within_inside hin) _
      (fun r hr => (hseed r (RefSet.mem_canonical.mp hr)).1) hbody)
    exact hcall.of_bind_left
  | deferred _ _ _ ih =>
    rintro s hs ⟨hquiet, _, s', hrun, htrail⟩
    obtain ⟨s₁, hcode, -, rfl⟩ := deferred_eq_ok.mp hrun
    have hblamed := ih hE.deferred s.deferring hs ⟨hquiet, (), s₁, hcode, htrail⟩
    exact (hblamed.mono (fun t ht => .inr (or_self_iff.mp ht)) (fun _ => id)
      fun _ _ => id).lift rfl rfl fun _ _ hcomes => hcomes.of_deferred
  | check =>
    refine fun s _ h => absurd h (not_records fun a s' hrun => ?_)
    rw [(checkLeftovers_eq_ok.mp hrun).1]

/-- The passes of a loop that record a leak do so in one of the passes, if each pass does. -/
theorem repeated_blamed (hm : m.Lawful w) {E E' : Effects} {x : Mode → Interp Unit}
    {V : Unit → Prop} (hx : Program w E' .idle x V .idle) (hE : E'.Within w) (k : Nat) :
    ∀ s, w.Tracked s →
      (∀ s₁, Relation.ReflTransGen
          (fun a b => x m a = .ok () b ∧ b.refs.sameAs a.refs = false) s s₁ → w.Tracked s₁ →
        Records (x m) s₁ trail → Blamed w m E x s₁ trail) →
      Records (repeated (x m) k) s trail →
        Blamed w m E (fun m => repeated (x m) k) s trail := by
  induction k with
  | zero =>
    rintro s - - ⟨-, _, _, hrun, -⟩
    cases hrun
  | succ k ih =>
    rintro s hs hpass ⟨hquiet, _, s', hrun, htrail⟩
    obtain ⟨s₁, hbody, hrest⟩ := repeated_eq_ok.mp hrun
    obtain ⟨-, hs₁, hframe⟩ := hx.lawful hm hE s () s₁ hs hbody
    by_cases hp : s₁.pending = none
    · rcases hrest with ⟨-, rfl⟩ | ⟨hchanged, hrest⟩
      · cases hp.symm.trans htrail
      have hblamed := ih s₁ hs₁ (fun s₂ h => hpass s₂ (.head ⟨hbody, hchanged⟩ h))
        ⟨hp, (), s', hrest, htrail⟩
      refine hblamed.lift hframe.callStack hframe.running fun t s₂ hcomes e => ?_
      obtain ⟨s₃, h₃⟩ := hcomes e
      have happrox := hx.planted_approx e t s₂ hm hE s hs
      rw [hbody] at happrox
      rcases happrox with h | ⟨_, s₄, h, rfl⟩
      · exact ⟨s₃, (repeated_of_changed h hchanged).trans h₃⟩
      · exact ⟨s₄, repeated_of_error h⟩
    · have hkept : s'.pending = s₁.pending := by
        rcases hrest with ⟨-, rfl⟩ | ⟨-, hrest⟩
        · rfl
        · have hlawful := repeated_lawful
            (fun s s' hs hrun => (hx.lawful hm hE s () s' hs hrun).2) k s₁ s' hs₁ hrest
          exact hlawful.2.pending hp
      have hblamed := hpass s .refl hs ⟨hquiet, (), s₁, hbody, hkept.symm.trans htrail⟩
      refine hblamed.lift rfl rfl fun t s₂ hcomes e => ?_
      obtain ⟨s₃, h₃⟩ := hcomes e
      exact ⟨s₃, repeated_of_error h₃⟩

end Programs

end EarlyEscape.Interp
