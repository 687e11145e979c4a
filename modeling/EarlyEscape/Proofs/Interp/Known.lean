import EarlyEscape.Proofs.Interp.Agreement
import EarlyEscape.Proofs.Interp.Leftovers

/-!
# Code without unknown nodes

A node of an unknown sort ends an interpretation with an error of the analysis.  No other node does
so, apart from the check for left over results: an interpretation that comes to known nodes only
never ends with such an error.  Which nodes it can come to is said by `Interp.CodeClosed`; nodes of
unknown sorts elsewhere, such as unknown members of classes, do no harm.

## Main definitions

* `Interp.NoUnknown` : a run does not end at an unknown node.

## Main results

* `Interp.Program.noUnknown` : a program ends at an unknown node only if it is one, or a piece
  inside does.
* `Interp.exec_noUnknown` : the interpretation of known code never ends at an unknown node.
-/

namespace EarlyEscape.Interp

/-- The run does not end at an unknown node: an error of the analysis reports a left over
result. -/
def NoUnknown {α : Type} (r : EStateM.Result Stop State α) : Prop :=
  ∀ e s, r = .error (.internal e) s → Stop.IsSurvivor (.internal e)

section Combinations

variable {α β : Type}

theorem noUnknown_ok {a : α} {s : State} : NoUnknown (.ok a s) := nofun

theorem noUnknown_missing {s : State} : NoUnknown (.error .missing s : EStateM.Result _ _ α) :=
  nofun

/-- Whether a run ends at an unknown node does not depend on the value that it would have. -/
theorem NoUnknown.error {e : Stop} {s : State} {r : EStateM.Result Stop State α} (h : NoUnknown r)
    (hr : r = .error e s) : NoUnknown (.error e s : EStateM.Result _ _ β) := by
  rintro e s ⟨⟩
  exact h e s hr

theorem bind_noUnknown {x : Interp α} {f : α → Interp β} {s : State} (hx : NoUnknown (x s))
    (hf : ∀ a s₁, x s = .ok a s₁ → NoUnknown (f a s₁)) : NoUnknown ((x >>= f) s) := by
  rw [bind_apply]
  split
  · next a s₁ hrun => exact hf a s₁ hrun
  · next e s₁ hrun => exact hx.error hrun

theorem onRefs_noUnknown {env : Env} {ordered : Bool} {f : Int → RefSet → α × RefSet}
    (s : State) : NoUnknown (onRefs env ordered f s) := by
  rw [onRefs_apply]
  split
  · exact noUnknown_missing
  · exact noUnknown_ok

theorem leakAt_noUnknown (pos : Option Pos) (s : State) : NoUnknown (leakAt pos s) := by
  rcases leakAt_cases pos s with ⟨-, h⟩ | ⟨-, h | ⟨p, -, h⟩⟩ <;> rw [h] <;> exact nofun

theorem promoteResult_noUnknown (env : Env) (s : State) : NoUnknown (promoteResult env s) := by
  rw [promoteResult_apply]
  split
  · exact noUnknown_ok
  · exact noUnknown_missing

theorem inScope_noUnknown {leave body : Interp Unit} {s : State}
    (hbody : NoUnknown (body { s with depth := s.depth + 1 }))
    (hleave : ∀ s, NoUnknown (leave s)) : NoUnknown (inScope leave body s) := by
  rw [inScope_apply]
  split
  · next e s₁ hb => exact hbody.error hb
  · next s₁ hb =>
    split
    · next e s₂ hl => exact (hleave s₁).error hl
    · exact noUnknown_ok

theorem enter_noUnknown {env : Env} {site : Option Pos} {decl : DeclId} {cls : Option ClassId}
    {seed : RefSet} {body : Interp Unit} {s : State}
    (hbody : ∀ pos, NoUnknown (body (s.called pos decl cls seed))) :
    NoUnknown (enter env site decl cls seed body s) := by
  rw [enter_apply]
  split
  · exact noUnknown_ok
  · split
    · exact noUnknown_missing
    · next pos =>
      split
      · next e s₁ hb => exact (hbody pos).error hb
      · split
        · exact noUnknown_ok
        · exact noUnknown_missing

theorem deferred_noUnknown {env : Env} {type : Option ClassId} {code : Interp Unit} {s : State}
    (hcode : NoUnknown (code s.deferring)) : NoUnknown (deferred env type code s) := by
  rw [deferred_apply]
  split
  · next e s₁ hc => exact hcode.error hc
  · split
    · exact noUnknown_ok
    · exact noUnknown_missing

theorem checkLeftovers_noUnknown (env : Env) (stmt : Stmt) (s : State) :
    NoUnknown (checkLeftovers env stmt s) := by
  rw [checkLeftovers_apply]
  split
  · split
    · split
      · exact noUnknown_ok
      · rintro e s ⟨⟩
        trivial
    · exact noUnknown_missing
  · exact noUnknown_ok

theorem repeated_noUnknown {body : Interp Unit} (h : ∀ s, NoUnknown (body s)) (n : Nat) :
    ∀ s, NoUnknown (repeated body n s) := by
  induction n with
  | zero => exact fun _ => nofun
  | succ n ih =>
    intro s
    rw [repeated_apply]
    split
    · next e s₁ hb => exact (h s).error hb
    · next s₁ _ =>
      split
      · exact noUnknown_ok
      · exact ih s₁

end Combinations

/-! ### Programs -/

section Program

variable {w : World} {m : Mode}

/-- A program ends at an unknown node only if it is that of an unknown node, or a piece inside ends
there. -/
theorem Program.noUnknown (hm : m.Lawful w) (hwalk : ∀ t s, NoUnknown (m.walk t s))
    {E : Effects} {p q : Phase} {α : Type} {x : Mode → Interp α} {V : α → Prop}
    (h : Program w E p x V q) (hE : E.Within w) (hfails : ¬E.fails) :
    ∀ s, w.Tracked s → NoUnknown (x m s) := by
  induction h with
  | pure => exact fun _ _ => noUnknown_ok
  | bind hx _ ihx ihf =>
    intro s hs
    refine bind_noUnknown (ihx hE hfails s hs) fun a s₁ hrun => ?_
    obtain ⟨ha, hs₁, -⟩ := hx.lawful hm hE s a s₁ hs hrun
    exact ihf a ha hE hfails s₁ hs₁
  | weaken _ _ _ _ ih => exact ih hE hfails
  | run => exact fun s _ => hwalk _ s
  | stop _ _ hk =>
    rcases hk with rfl | hk
    · exact fun _ _ => noUnknown_missing
    · exact absurd hk hfails
  | ask _ ih => exact fun s hs => ih s.methodClass hE hfails s hs
  | basic => exact fun s _ => onRefs_noUnknown s
  | leakAt => exact fun s _ => leakAt_noUnknown _ s
  | scope _ ih =>
    exact fun s hs => inScope_noUnknown (ih hE hfails { s with depth := s.depth + 1 } hs)
      fun _ => noUnknown_ok
  | promote _ ih =>
    exact fun s hs => inScope_noUnknown (ih hE hfails { s with depth := s.depth + 1 } hs)
      (promoteResult_noUnknown _)
  | call he hb _ hin hseed hne _ ih =>
    exact fun s _ => enter_noUnknown fun pos => ih (Effects.within_inside hin) id _
      fun r hr => (hseed r (RefSet.mem_canonical.mp hr)).1
  | visit hc _ hin hseed hne _ ih =>
    exact fun s _ => bind_noUnknown (enter_noUnknown fun pos => ih (Effects.within_inside hin) id _
      fun r hr => (hseed r (RefSet.mem_canonical.mp hr)).1) fun _ _ _ => noUnknown_ok
  | deferred _ _ _ ih =>
    exact fun s hs => deferred_noUnknown (ih hE.deferred hfails s.deferring hs)
  | check => exact fun s _ => checkLeftovers_noUnknown _ _ s

end Program

/-! ### The interpreter -/

/-- The handler of a known node does not end at an unknown node if the pieces inside do not. -/
theorem step_noUnknown {env : Env} {walk : Walk} {passes : Nat}
    (hm : Mode.Lawful (.all env.table env.catalog) ⟨env.checked, env.guard, env.ties, walk, passes⟩)
    (hwalk : ∀ t s, NoUnknown (walk t s)) {t : Task} (hknown : t.node.isKnown = true) (s : State) :
    NoUnknown (step env walk passes t s) := by
  have hw := World.all_closed env.table env.catalog
  have hE := Effects.within_ofTask hw (t := t) trivial
  have hfails : ¬(Effects.ofTask t).fails := fun h => nomatch hknown.symm.trans h
  by_cases hloop : ∃ stmt, t = .loop stmt
  · obtain ⟨stmt, rfl⟩ := hloop
    refine inScope_noUnknown (repeated_noUnknown (fun s => ?_) passes _) fun _ => noUnknown_ok
    exact (program_loopPass hw stmt trivial).noUnknown hm hwalk hE hfails s (World.all_tracked s)
  · have hstep := program_step hw (fun stmt h => hloop ⟨stmt, h⟩) trivial
    exact hstep.noUnknown hm hwalk hE hfails s (World.all_tracked s)

open Classical in
/-- The interpretation of code whose nodes are all known never ends at an unknown node. -/
theorem exec_noUnknown {env : Env} {Q : Node → Prop} (hQ : CodeClosed env Q)
    (hknown : ∀ n, Q n → n.isKnown = true) (n : Nat) {t : Task} (ht : Q t.node) (s : State) :
    NoUnknown (exec env n t s) := by
  induction n generalizing t s with
  | zero => exact nofun
  | succ n ih =>
    -- the pieces outside the code do not matter
    let walk : Walk := fun t => if Q t.node then exec env n t else throw .missing
    have hsame : exec env (n + 1) t = step env walk n t :=
      hQ.step_eq (Catalog.agrees_self _ _) (fun t ht => (if_pos ht).symm) n ht
    have hlawful :=
      exec_lawful (World.all_closed env.table env.catalog) env.checked env.guard env.ties n
    rw [hsame]
    refine step_noUnknown (fun t s s' hn hs hrun => ?_) (fun t s => ?_) (hknown _ ht) s
    · change (if Q t.node then exec env n t else throw .missing : Interp Unit) s = _ at hrun
      split at hrun
      · exact hlawful t s s' hn hs hrun
      · cases hrun
    · change NoUnknown ((if Q t.node then exec env n t else throw .missing : Interp Unit) s)
      split
      · next ht => exact ih ht s
      · exact noUnknown_missing

end EarlyEscape.Interp
