import EarlyEscape.Proofs.Interp.Loops

/-!
# The pieces that a run comes to

A run that comes to its end only through pieces of one sort has parts that do the same.  For given
code this can be found out by another run: an interpreter that refuses all other pieces ends with an
error as soon as it comes to one of them.

## Main definitions

* `Interp.RunsThrough` : a run comes to its end, and only to pieces with a property.
* `Interp.confined` : the interpreter that refuses all other pieces.

## Main results

* `Interp.RunsThrough.of_bind`, `Interp.RunsThrough.of_repeated` : the parts of a run through pieces
  with a property are such runs.
* `Interp.Calls.confined` : an interpretation that is not refused comes to other pieces only.
-/

namespace EarlyEscape.Interp

/-! ### Runs and their parts -/

/-- The code comes to its end from the state `s`, with the value `a` in the state `s'`, and all
pieces that it comes to, with the states in which it does, have the property. -/
structure RunsThrough (P : Task → State → Prop) (m : Mode) {α : Type} (x : Mode → Interp α)
    (s : State) (a : α) (s' : State) : Prop where
  ends : x m s = .ok a s'
  through : ∀ t s₁, m.Comes x s t s₁ → P t s₁

namespace RunsThrough

variable {P : Task → State → Prop} {w : World} {m : Mode} {E : Effects} {p q : Phase} {α β : Type}
  {s s' : State}

/-- The first one of two steps. -/
theorem left {x : Mode → Interp α} {f : α → Mode → Interp β} {b : β}
    (h : RunsThrough P m (fun m => x m >>= fun a => f a m) s b s') :
    ∃ a s₁, RunsThrough P m x s a s₁ ∧ f a m s₁ = .ok b s' := by
  obtain ⟨a, s₁, hx, hf⟩ := bind_eq_ok.mp h.ends
  exact ⟨a, s₁, ⟨hx, fun t s₂ hcomes => h.through t s₂ hcomes.of_bind⟩, hf⟩

/-- A program and the step after it. -/
theorem of_bind (hm : m.Lawful w) {x : Mode → Interp α} {V : α → Prop} (hx : Program w E p x V q)
    (hE : E.Within w) (hs : w.Tracked s) {f : α → Mode → Interp β} {b : β}
    (h : RunsThrough P m (fun m => x m >>= fun a => f a m) s b s') :
    ∃ a s₁, RunsThrough P m x s a s₁ ∧ (V a ∧ w.Tracked s₁ ∧ Frame E s s₁) ∧
      RunsThrough P m (f a) s₁ b s' := by
  obtain ⟨a, s₁, hfirst, hf⟩ := h.left
  exact ⟨a, s₁, hfirst, hx.lawful hm hE s a s₁ hs hfirst.ends, hf, fun t s₂ hcomes =>
    h.through t s₂ (hx.comes_bind hm hE hs hfirst.ends hcomes)⟩

theorem of_inScope {leave x : Mode → Interp Unit}
    (h : RunsThrough P m (fun m => inScope (leave m) (x m)) s () s') :
    ∃ s₁ s₂, RunsThrough P m x { s with depth := s.depth + 1 } () s₁ ∧ leave m s₁ = .ok () s₂ ∧
      s' = { s₂ with depth := s₂.depth - 1 } := by
  obtain ⟨s₁, s₂, hbody, hleave, rfl⟩ := inScope_eq_ok.mp h.ends
  exact ⟨s₁, s₂, ⟨hbody, fun t s₂ hcomes => h.through t s₂ hcomes.of_inScope⟩, hleave, rfl⟩

theorem of_deferred {type : Option ClassId} {x : Mode → Interp Unit}
    (h : RunsThrough P m (fun m => deferred (w.env m) type (x m)) s () s') :
    ∃ s₁, RunsThrough P m x s.deferring () s₁ ∧ s' = s.resumed s₁ type := by
  obtain ⟨s₁, hcode, -, rfl⟩ := deferred_eq_ok.mp h.ends
  exact ⟨s₁, ⟨hcode, fun t s₂ hcomes => h.through t s₂ hcomes.of_deferred⟩, rfl⟩

/-- A call is left out, or its code is run. -/
theorem of_enter {site : Option Pos} {decl : DeclId} {cls : Option ClassId} {seed : RefSet}
    {x : Mode → Interp Unit} {rs : List Ref}
    (h : RunsThrough P m (fun m => enter (w.env m) site decl cls seed (x m)) s rs s') :
    (isCut (w.env m) s decl seed = true ∧ rs = [] ∧ s' = s.cut (w.env m) decl seed) ∨
      ∃ pos s₁, isCut (w.env m) s decl seed = false ∧
        RunsThrough P m x (s.called pos decl cls seed) () s₁ ∧
        rs = s₁.refs.find w.table m.ties .returned (fun _ => true) ∧ s' = s.back s₁ := by
  rcases enter_eq_ok.mp h.ends with hcut | ⟨pos, s₁, rfl, hcut, hbody, -, rfl, rfl⟩
  · exact .inl hcut
  · exact .inr ⟨pos, s₁, hcut, ⟨hbody, fun t s₂ hcomes => h.through t s₂ (hcomes.of_enter hcut)⟩,
      rfl, rfl⟩

/-- The first pass of a loop and those after it. -/
theorem of_repeated (hm : m.Lawful w) {x : Mode → Interp Unit} {V : Unit → Prop}
    (hx : Program w E p x V q) (hE : E.Within w) (hs : w.Tracked s) {k : Nat}
    (h : RunsThrough P m (fun m => repeated (x m) (k + 1)) s () s') :
    ∃ s₁, RunsThrough P m x s () s₁ ∧ (w.Tracked s₁ ∧ Frame E s s₁) ∧
      (s₁.refs.sameAs s.refs = true ∧ s' = s₁ ∨
        s₁.refs.sameAs s.refs = false ∧ RunsThrough P m (fun m => repeated (x m) k) s₁ () s') := by
  obtain ⟨s₁, hpass, hrest⟩ := repeated_eq_ok.mp h.ends
  refine ⟨s₁, ⟨hpass, fun t s₂ hcomes => h.through t s₂ fun e => ?_⟩,
    (hx.lawful hm hE s () s₁ hs hpass).2, hrest.imp_right fun ⟨hchanged, hrest⟩ =>
      ⟨hchanged, hrest, fun t s₂ hcomes => h.through t s₂ fun e => ?_⟩⟩
  · obtain ⟨s₃, h₃⟩ := hcomes e
    exact ⟨s₃, repeated_of_error h₃⟩
  · obtain ⟨s₃, h₃⟩ := hcomes e
    have happrox := hx.planted_approx e t s₂ hm hE s hs
    rw [hpass] at happrox
    -- the planted end may come up in the first pass already
    rcases happrox with h | ⟨_, s₄, h, rfl⟩
    · exact ⟨s₃, (repeated_of_changed h hchanged).trans h₃⟩
    · exact ⟨s₄, repeated_of_error h⟩

end RunsThrough

/-! ### Refused pieces -/

/-- Interprets a piece of a program like `exec`, but ends at a piece without the property. -/
def confined (env : Env) (p : Task → Bool) : Nat → Walk
  | 0, _ => throw .exhausted
  | n + 1, t => if p t then step env (confined env p n) n t else throw .missing

section Confined

variable {env : Env} {p : Task → Bool} {n : Nat} {t : Task} {s s₁ : State}

/-- A run that comes to its end was not refused. -/
theorem confined_eq_ok (h : confined env p n t s = .ok () s₁) :
    p t = true ∧ ∃ k, n = k + 1 ∧ step env (confined env p k) k t s = .ok () s₁ := by
  cases n with
  | zero => cases h
  | succ n =>
    cases hp : p t with
    | false =>
      rw [confined, hp] at h
      cases h
    | true =>
      rw [confined, if_pos hp] at h
      exact ⟨rfl, n, rfl, h⟩

/-- The world of all code of a program, with the interpreter that refuses some pieces. -/
def confinedMode (env : Env) (p : Task → Bool) (n : Nat) : Mode :=
  ⟨env.checked, env.guard, env.ties, confined env p n, n⟩

theorem confined_lawful (env : Env) (p : Task → Bool) (n : Nat) :
    (confinedMode env p n).Lawful (World.all env.table env.catalog) := by
  induction n with
  | zero => exact fun _ _ _ _ _ hrun => nomatch hrun
  | succ n ih =>
    intro t s s' ht hs hrun
    obtain ⟨-, k, ⟨⟩, hstep⟩ := confined_eq_ok hrun
    exact step_lawful (World.all_closed env.table env.catalog) ih ht s s' hs hstep

/-- A run that is not refused is one of the interpreter. -/
theorem confined_approx (env : Env) (p : Task → Bool) {n n' : Nat} (hn : n ≤ n') (t : Task)
    (s : State) : Approx (fun _ _ => True) (confined env p n t s) (exec env n' t s) := by
  have hw := World.all_closed env.table env.catalog
  induction n generalizing n' t s with
  | zero => exact .error trivial
  | succ n ih =>
    obtain ⟨k, rfl⟩ : ∃ k, n' = k + 1 := ⟨n' - 1, by omega⟩
    have hn : n ≤ k := Nat.le_of_succ_le_succ hn
    let M := confinedMode env p n
    let M' := (World.all env.table env.catalog).mode env.checked env.guard env.ties k
    rw [confined]
    split
    · change Approx _ (step ((World.all _ _).env M) M.walk M.passes t s)
        (step ((World.all _ _).env M') M'.walk M'.passes t s)
      exact step_approx M' hw (confined_lawful env p n) steady_true rfl (.inl rfl) hn
        (fun _ _ => trivial) (fun _ _ _ => .refl) (fun t s _ _ _ => ih hn t s) t trivial s
        (World.all_tracked s) trivial
    · exact .error trivial

/-- An interpretation that is not refused comes to no piece where it would be. -/
theorem Calls.confined {t' : Task} {s' : State} (h : Calls env t s t' s')
    (hrun : confined env p n t s = .ok () s₁) :
    ∃ k s₂, Interp.confined env p k t' s' = .ok () s₂ := by
  obtain ⟨-, n, rfl, hstep⟩ := confined_eq_ok hrun
  obtain ⟨n₀, h⟩ := h
  obtain ⟨s₂, hplanted⟩ := h .missing
  by_contra hnot
  have hw := World.all_closed env.table env.catalog
  let w := World.all env.table env.catalog
  let M := confinedMode env p n
  let M' := (w.mode env.checked env.guard env.ties (max n n₀)).planted .missing t' s'
  -- a run that is not refused does not see an end planted where it would be
  have happrox : Approx (fun _ _ => True) (step (w.env M) M.walk M.passes t s)
      (step (w.env M') M'.walk M'.passes t s) := by
    refine step_approx M' hw (confined_lawful env p n) steady_true rfl (.inl rfl)
      (Nat.le_max_left n n₀) (fun _ _ => trivial) (fun _ _ _ => .refl) ?_ t trivial s
      (World.all_tracked s) trivial
    intro t s _ _ _
    by_cases hpoint : t = t' ∧ s = s'
    · obtain ⟨rfl, rfl⟩ := hpoint
      change Approx _ (Interp.confined env p n t s) _
      cases hend : Interp.confined env p n t s with
      | ok _ s₃ => exact absurd ⟨n, s₃, hend⟩ hnot
      | error => exact .error trivial
    · rw [planted_walk_of_ne hpoint]
      exact confined_approx env p (Nat.le_max_left n n₀) t s
  rw [show step (w.env M) M.walk M.passes t s = .ok () s₁ from hstep] at happrox
  have hmissing : Stop.missing ≠ .exhausted := by decide
  cases happrox.ok.symm.trans (planted_of_le hmissing (Nat.le_max_right n n₀) hplanted)

end Confined

end EarlyEscape.Interp
