import EarlyEscape.Proofs.Interp.Bounds
import EarlyEscape.Proofs.Interp.Checks
import EarlyEscape.Proofs.Ref.Same
import Mathlib.Data.Finset.Powerset
import Mathlib.Data.Finset.Prod
import Mathlib.Data.Set.Finite.Lattice
import Mathlib.Order.Interval.Finset.Nat

/-!
# Simulated calls are not nested without end

No call is entered while the same declaration is running from the same references.  The calls that
are running are therefore all different, and as there are finitely many declarations and
references, only so many calls can be running at a time.

## Main definitions

* `Interp.Ready` : what holds of the state at the start of all code.

## Main results

* `Interp.steady_ready` : it does.
* `Interp.World.finite_held` : there are finitely many references that can be held.
* `Interp.Ready.length_running_le` : a bound on the number of running calls.
-/

namespace EarlyEscape.Interp

/-! ### Running calls -/

/-- A running call runs code of the world from references, at least one, that receivers or variables
hold. -/
structure World.Running (w : World) (d : DeclId) (seed : RefSet) : Prop where
  code : ∃ c, Code w c ∧ c.decl = d
  refs : ∀ r ∈ seed, w.Tracks r ∧ IsSeed r
  nonempty : seed.isEmpty = false

/-- What holds of the state whenever code in the phase `p` starts: there is one position for each of
the running calls, no two of them run the same declaration from the same references, and all
references that waiting code goes on with stay inside the bounds. -/
structure Ready (w : World) (p : Phase) (s : State) : Prop where
  phase : s.In p
  running : ∀ d seed, (d, seed) ∈ s.running → w.Running d seed
  distinct : s.running.Pairwise fun a b => a.1 = b.1 → a.2.sameAs b.2 = false
  positions : s.running.length = s.callStack.length
  saved : ∀ refs ∈ s.saved, ∀ r ∈ refs, w.Tracks r

theorem ready_start {w : World} (cls : Option ClassId) : Ready w .idle (.start cls) where
  phase := State.start_in_idle cls
  running _ _ h := nomatch h
  distinct := .nil
  positions := rfl
  saved _ h := nomatch h

section Ready

variable {w : World} {m : Mode}

/-- A call that is not cut runs the declaration from other references than the running calls. -/
theorem sameAs_of_not_isCut (hguard : m.guard = .running) {s : State} {decl : DeclId}
    {seed refs : RefSet} (hcut : isCut (w.env m) s decl seed = false)
    (h : (decl, refs) ∈ s.running) : seed.sameAs refs = false := by
  simp only [isCut, World.env, hguard, List.any_eq_false] at hcut
  simpa using hcut (decl, refs) h

/-- The state is ready at the start of all code, if no call is entered a second time. -/
theorem steady_ready (hm : m.Lawful w) (ht : m.Tidy w) (hguard : m.guard = .running) :
    Steady w m (Ready w) where
  of_idle p _ h := { h with phase := h.phase.of_idle p }
  program hx hE s a s' hs hp hrun := by
    obtain ⟨-, -, hframe⟩ := hx.lawful hm hE s a s' hs hrun
    have hend := hx.tidy hm ht hE s hs hp.phase
    rw [hrun] at hend
    refine ⟨hend, ?_, ?_, ?_, ?_⟩
    · rw [hframe.running]
      exact hp.running
    · rw [hframe.running]
      exact hp.distinct
    · rw [hframe.running, hframe.callStack]
      exact hp.positions
    · rw [hframe.saved]
      exact hp.saved
  deeper _ _ h := { h with phase := h.phase.deeper }
  deferring _ s hs h := { h with saved := List.forall_mem_cons.mpr ⟨hs, h.saved⟩ }
  called p s pos c seed hs hp hcut hc hseed hne := by
    refine ⟨State.called_in_idle fun r hr => (hseed r hr).2, ?_, ?_,
      congrArg (· + 1) hp.positions, List.forall_mem_cons.mpr ⟨hs, hp.saved⟩⟩
    · intro d seed' h
      rcases List.mem_cons.mp h with h | h
      · cases h
        refine ⟨⟨c, hc, rfl⟩, fun r hr => hseed r (RefSet.mem_canonical.mp hr), ?_⟩
        rw [RefSet.isEmpty_canonical]
        exact hne
      · exact hp.running d seed' h
    · refine List.pairwise_cons.mpr ⟨?_, hp.distinct⟩
      rintro ⟨d, refs⟩ h rfl
      rw [RefSet.sameAs_canonical]
      exact sameAs_of_not_isCut hguard hcut h

end Ready

/-! ### A bound on the number of running calls -/

section Bound

variable {t : SymbolTable} {cat : Catalog} {n : Nat}

/-- There are finitely many references that a receiver, a variable, a returned or a yielded value
can hold. -/
theorem World.finite_held (t : SymbolTable) (cat : Catalog) (n : Nat) :
    {r | (World.sized t cat n).Tracks r ∧ r.kind ≠ .expr}.Finite := by
  let key (r : Ref) := (r.kind.code, r.varKey, r.typeKey, r.ind.bits.toNat)
  let bounds := Finset.range 5 ×ˢ Finset.range (n + 1) ×ˢ Finset.range (n + 1) ×ˢ Finset.range 256
  refine Set.Finite.of_injOn (f := key) (t := bounds) ?_ ?_ bounds.finite_toSet
  · rintro r ⟨hr, -⟩
    have hkind : r.kind.code < 5 := by cases r.kind <;> decide
    have hvar : r.varKey < n + 1 := by
      obtain ⟨role, type, ind⟩ := r
      cases role with
      | var v => exact Nat.succ_lt_succ (hr.var v rfl)
      | _ => exact Nat.succ_pos n
    have htype : r.typeKey < n + 1 := by
      obtain ⟨role, type, ind⟩ := r
      cases type with
      | none => exact Nat.succ_pos n
      | some k => exact Nat.succ_lt_succ (hr.type k rfl)
    have hind : r.ind.bits.toNat < 256 := r.ind.bits.isLt
    simp [bounds, key, hkind, hvar, htype, hind]
  · rintro a ⟨-, ha⟩ b ⟨-, hb⟩ h
    simp only [key, Prod.mk.injEq] at h
    obtain ⟨hkind, hvar, htype, hind⟩ := h
    refine Ref.eq_of_compareIdentity ?_
    simp only [Ref.compareIdentity, compareLex_eq_eq, compareOn,
      Std.LawfulEqCmp.compare_eq_iff_eq]
    refine ⟨hkind, ?_, hvar, htype, hind⟩
    rw [Ref.depth_of_kind_ne_expr ha, Ref.depth_of_kind_ne_expr hb]

/-- The declarations of the world have bounded numbers. -/
theorem Code.index_lt (hw : (World.sized t cat n).Closed) {c : Callee}
    (h : Code (World.sized t cat n) c) : c.decl.index < n := by
  cases h with
  | method he _ => exact Nat.lt_of_lt_of_le (MethodDecl.index_lt _) (hw.entry _ _ he).2
  | initializers hn =>
    exact Nat.lt_of_lt_of_le (ClassDecl.index_lt _) (hw.nodes_anonymousClass hn)
  | later hn hm _ _ =>
    exact Nat.lt_of_lt_of_le (MethodDecl.index_lt _) (hw.nodes_anonymousMethod hn hm)

/-- Only so many calls can be running when code starts. -/
theorem Ready.length_running_le (hw : (World.sized t cat n).Closed) {p : Phase} {s : State}
    (h : Ready (World.sized t cat n) p s) :
    s.running.length ≤ (Finset.range n ×ˢ (World.finite_held t cat n).toFinset.powerset).card := by
  let key (c : DeclId × RefSet) := (c.1.index, c.2.toList.toFinset)
  have hnodup : (s.running.map key).Nodup := by
    refine List.pairwise_map.mpr (h.distinct.imp ?_)
    rintro ⟨⟨i⟩, a⟩ ⟨⟨j⟩, b⟩ hne heq
    simp only [key, Prod.mk.injEq] at heq
    obtain ⟨rfl, hset⟩ := heq
    have hsame : a.sameAs b = true :=
      RefSet.sameAs_iff.mpr fun r => by simpa [RefSet.mem_def] using Finset.ext_iff.mp hset r
    exact absurd (hne rfl) (by simp [hsame])
  have hsub : (s.running.map key).toFinset ⊆
      Finset.range n ×ˢ (World.finite_held t cat n).toFinset.powerset := by
    intro c hc
    obtain ⟨⟨d, seed⟩, hmem, rfl⟩ := List.mem_map.mp (List.mem_toFinset.mp hc)
    obtain ⟨⟨c, hcode, rfl⟩, hseed, -⟩ := h.running d seed hmem
    refine Finset.mem_product.mpr ⟨Finset.mem_range.mpr (hcode.index_lt hw),
      Finset.mem_powerset.mpr fun r hr => ?_⟩
    obtain ⟨htracks, hkind⟩ := hseed r (List.mem_toFinset.mp hr)
    refine (Set.Finite.mem_toFinset _).mpr ⟨htracks, ?_⟩
    rcases hkind with hk | hk <;> simp [hk]
  calc s.running.length = (s.running.map key).toFinset.card := by
        rw [List.toFinset_card_of_nodup hnodup, List.length_map]
    _ ≤ _ := Finset.card_le_card hsub

end Bound

end EarlyEscape.Interp
