import EarlyEscape.Proofs.Analysis.Termination
import EarlyEscape.Proofs.Analysis.Trails

/-!
# What the guard against recursion rests on

A call is not entered while the same declaration is running from the same references.  That this
bounds the simulated calls rests on an invariant of the sessions: whenever a piece of a program
starts or comes to its end, the running calls of a declaration have started from different sets of
references that receivers and variables hold, there is one position on the call stack for each of
them, and no reference has lost all its indirections.

## Main definitions

* `Interp.State.Guarded` : the invariant.

## Main results

* `Analysis.reached_guarded` : it holds whenever a piece of a program starts or comes to its end.
-/

namespace EarlyEscape

namespace Interp

/-- The references of the set have indirections. -/
def RefsNonempty (refs : RefSet) : Prop := ∀ r ∈ refs, r.ind.isEmpty = false

/-- The running calls of each declaration have started from different sets of references, none of
them empty, that receivers and variables hold; there is one position for each of them; and all
references, also those that waiting code goes on with, have indirections. -/
structure State.Guarded (s : State) : Prop where
  distinct : s.running.Pairwise fun a b => a.1 = b.1 → ¬∀ r, r ∈ a.2 ↔ r ∈ b.2
  seeded : ∀ d seed, (d, seed) ∈ s.running → (∃ r, r ∈ seed) ∧ ∀ r ∈ seed, IsSeed r
  positions : s.running.length = s.callStack.length
  current : RefsNonempty s.refs
  saved : ∀ refs ∈ s.saved, RefsNonempty refs
  entered : ∀ d seed, (d, seed) ∈ s.running → RefsNonempty seed

section Guarded

variable {t : SymbolTable} {cat : Catalog} {N : Nat} {s s' : State}

/-- In a world in which all references have indirections, what holds at the start of code implies
the invariant. -/
theorem Ready.guarded {p : Phase} (h : Ready (World.sized t cat N) p s)
    (hs : (World.sized t cat N).Tracked s) : s.Guarded where
  distinct := by
    refine h.distinct.imp ?_
    rintro ⟨d, a⟩ ⟨_, b⟩ hne rfl hsame
    rw [RefSet.sameAs_iff.mpr hsame] at hne
    exact absurd (hne rfl) (by decide)
  seeded d seed hmem := by
    obtain ⟨-, hrefs, hne⟩ := h.running d seed hmem
    exact ⟨RefSet.exists_mem_of_isEmpty hne, fun r hr => (hrefs r hr).2⟩
  positions := h.positions
  current r hr := (hs r hr).ind
  saved refs hrefs r hr := (h.saved refs hrefs r hr).ind
  entered d seed hmem r hr := ((h.running d seed hmem).refs r hr).1.ind

/-- Code that respects its frame keeps the invariant. -/
theorem State.Guarded.frame {E : Effects} (h : s.Guarded) (hframe : Frame E s s')
    (hrefs : RefsNonempty s'.refs) : s'.Guarded where
  distinct := hframe.running ▸ h.distinct
  seeded := hframe.running ▸ h.seeded
  positions := by
    rw [hframe.running, hframe.callStack]
    exact h.positions
  current := hrefs
  saved := hframe.saved ▸ h.saved
  entered := hframe.running ▸ h.entered

end Guarded

end Interp

namespace Analysis

open Interp

/-- Whenever a session comes to a piece of a program, and whenever such a piece comes to its end,
the running calls of each declaration have started from different non-empty sets of references that
receivers and variables hold, there are as many of them as positions on the call stack, and all
references in the current set, in the sets that waiting code goes on with and in those that the
running calls have started from have indirections. -/
theorem reached_guarded (t : SymbolTable) (cat : Catalog) (checked : Bool) (cls : Option ClassId)
    (stmts : List (Option Stmt)) (task : Task) (s : State)
    (h : Reached ⟨t, cat, checked, .running, ties⟩ cls stmts task s) :
    s.Guarded ∧
      ∀ fuel s', exec ⟨t, cat, checked, .running, ties⟩ fuel task s = .ok () s' → s'.Guarded := by
  obtain ⟨N, hw, hcls, hstmts⟩ := exists_world t cat cls stmts
  obtain ⟨hn, hs, hready⟩ := h.ready hw hcls hstmts
  have hguarded : s.Guarded := hready.guarded hs
  refine ⟨hguarded, fun fuel s' hrun => ?_⟩
  obtain ⟨hs', hframe⟩ := exec_lawful hw checked .running ties fuel task s s' hn hs hrun
  exact hguarded.frame hframe fun r hr => (hs' r hr).ind

/-- A session comes to all that a piece it comes to comes to. -/
theorem Reached.comes {env : Env} {cls : Option ClassId} {stmts : List (Option Stmt)}
    {a b : Task × State} (h : Reached env cls stmts a.1 a.2)
    (hcomes : Relation.ReflTransGen (Occurrence.Next env) a b) : Reached env cls stmts b.1 b.2 := by
  induction hcomes with
  | refl => exact h
  | tail _ hnext ih => exact ih.inside hnext

/-- The session over `this(1);` comes to code in the call of the other constructor. -/
theorem reached_guarded_field :
    ∃ task s, Reached fieldEnv (some ⟨1⟩) [some fieldCall] task s ∧ s.callStack = [32] ∧
      s.running.length = 1 ∧ s.Guarded := by
  have hstart : Reached fieldEnv (some ⟨1⟩) [some fieldCall] (.stmt fieldCall)
      (.start (some ⟨1⟩)) :=
    @Reached.start _ _ _ [] [] _ 0 _ rfl rfl rfl
  obtain ⟨os, hchain, hos⟩ := exec_leakChain ⟨rfl, (), _, exec_fieldCall, rfl⟩
  have hpositions : os.map (·.node.pos) = [22, 32] := (List.append_nil _).symm.trans hos.symm
  obtain ⟨a, b, rfl⟩ : ∃ a b, os = [a, b] := by
    rw [← List.length_eq_two, ← os.length_map (·.node.pos), hpositions]
    rfl
  obtain ⟨_, ⟨⟩, hb : b.Inside fieldEnv _ _⟩ := hchain.outermost
  obtain ⟨c, ha⟩ := List.isChain_pair.mp hchain.entered
  have hreached : Reached fieldEnv (some ⟨1⟩) [some fieldCall] a.task a.state :=
    (hstart.comes hb.comes).comes ha.comes.to_reflTransGen
  have hpos : b.node.pos = 32 := (List.cons.inj (List.cons.inj hpositions).2).1
  obtain ⟨seed, hrunning⟩ := ha.running
  refine ⟨a.task, a.state, hreached, ?_, ?_,
    (reached_guarded fieldTable fieldEnv.catalog false _ _ _ _ hreached).1⟩
  · rw [ha.callStack, hb.callStack, hpos]
    rfl
  · rw [hrunning, hb.running]
    rfl

end Analysis

end EarlyEscape
