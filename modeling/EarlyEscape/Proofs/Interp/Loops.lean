import EarlyEscape.Proofs.Interp.Nesting
import EarlyEscape.Proofs.Interp.Reach
import Mathlib.Data.Fintype.Card
import Mathlib.Data.Fintype.Powerset
import Mathlib.Order.OrderIsoNat

/-!
# Loops without end

A loop is interpreted pass by pass until a pass changes no reference.  Passes only ever add
references, with one exception: a switch with a value takes what is yielded, also what was yielded
before it.  As there are finitely many references that can be held, a loop whose passes come to
their ends goes on without end only if from some pass on it changes nothing but yielded values, and
changes these in every pass.

## Main definitions

* `Interp.Turns` : a pass comes to its end and changes references.
* `Interp.Alternates` : passes that change yielded values without end.

## Main results

* `Interp.exists_diverges_or_turns` : a loop without end comes to a piece without end, or its passes
  go on without end.
* `Interp.settlesButYields` : passes without end change yielded values only, from some pass on.
* `Interp.Alternates.diverges` : a loop that alternates has no end.
* `Interp.Alternates.takes_and_gives` : it takes yielded values and yields.
-/

namespace EarlyEscape.Interp

/-- A pass of the loop leads from the state `s` to the state `s'` and changes the references. -/
def Turns (env : Env) (stmt : Stmt) (s s' : State) : Prop :=
  (∃ fuel, loopPass env (exec env fuel) stmt s = .ok () s') ∧ s'.refs.sameAs s.refs = false

/-- From some state on, the states hold the same references apart from yielded values. -/
def SettlesButYields (trace : Nat → State) : Prop :=
  ∃ n, ∀ i, n ≤ i → ∀ r : Ref, r.kind ≠ .yielded → (r ∈ (trace i).refs ↔ r ∈ (trace n).refs)

/-- From the state `s` the loop takes pass after pass without end.  Every pass changes the
references, and from some pass on only the yielded values. -/
def Alternates (env : Env) (stmt : Stmt) (s : State) : Prop :=
  ∃ trace : Nat → State, trace 0 = { s with depth := s.depth + 1 } ∧
    (∀ i, Turns env stmt (trace i) (trace (i + 1))) ∧ SettlesButYields trace

/-! ### Single passes -/

section Passes

variable {body : Interp Unit} {n : Nat} {s s₁ : State}

theorem repeated_of_error {e : Stop} (h : body s = .error e s₁) :
    repeated body (n + 1) s = .error e s₁ := by
  rw [repeated_apply, h]

theorem repeated_of_same (h : body s = .ok () s₁) (hsame : s₁.refs.sameAs s.refs = true) :
    repeated body (n + 1) s = .ok () s₁ :=
  repeated_eq_ok.mpr ⟨s₁, h, .inl ⟨hsame, rfl⟩⟩

theorem repeated_of_changed (h : body s = .ok () s₁) (hsame : s₁.refs.sameAs s.refs = false) :
    repeated body (n + 1) s = repeated body n s₁ := by
  simp [repeated_apply, h, hsame]

end Passes

section Loops

variable {w : World} {checked : Bool} {guard : Guard} {ties : TieOrder}

/-- The passes of a loop use up every bound. -/
def World.LoopStalls (w : World) (checked : Bool) (guard : Guard) (ties : TieOrder)
    (x : Mode → Interp Unit) (s : State) : Prop :=
  ∀ n k, Exhausts (repeated (x (w.mode checked guard ties n)) k s)

variable {E : Effects} {x : Mode → Interp Unit} {V : Unit → Prop} {s : State}

/-- More steps and more passes change no result of a loop that was reached. -/
theorem Program.repeated_mono (hw : w.Closed) (h : Program w E .idle x V .idle) (hE : E.Within w)
    {n n' k k' : Nat} (hn : n ≤ n') (hk : k ≤ k') (hs : w.Tracked s) :
    Approx OutOfSteps (repeated (x (w.mode checked guard ties n)) k s)
      (repeated (x (w.mode checked guard ties n')) k' s) :=
  repeated_approx (I := w.Tracked) hk (fun _ _ => rfl)
    (fun s s' hs hrun => (h.lawful (exec_lawful hw checked guard ties n) hE s () s' hs hrun).2.1)
    (fun s hs => h.mode_mono hw hE hn s hs) s hs

/-- If a loop has no end, then a pass has none, or it comes to its end, changes the references and
the passes after it have no end. -/
theorem Program.loopStalls_cases (hw : w.Closed) (h : Program w E .idle x V .idle)
    (hE : E.Within w) (hs : w.Tracked s) (hstall : w.LoopStalls checked guard ties x s) :
    w.Stalls checked guard ties x s ∨
      ∃ n₀ s₁, (∀ n, n₀ ≤ n → x (w.mode checked guard ties n) s = .ok () s₁) ∧
        s₁.refs.sameAs s.refs = false ∧ w.LoopStalls checked guard ties x s₁ := by
  refine or_iff_not_imp_left.mpr fun hpass => ?_
  obtain ⟨n₀, hend⟩ := not_forall.mp hpass
  cases hrun : x (w.mode checked guard ties n₀) s with
  | error e s₁ =>
    obtain ⟨s', hfull⟩ := hstall n₀ 1
    cases (repeated_of_error hrun).symm.trans hfull
    exact absurd ⟨s₁, hrun⟩ hend
  | ok _ s₁ =>
    have hok : ∀ n, n₀ ≤ n → x (w.mode checked guard ties n) s = .ok () s₁ := fun n hn =>
      h.run_of_le hw hE hn hs hrun
    have hs₁ := (h.lawful (exec_lawful hw checked guard ties n₀) hE s () s₁ hs hrun).2.1
    cases hsame : s₁.refs.sameAs s.refs with
    | true =>
      obtain ⟨s', hfull⟩ := hstall n₀ 1
      cases (repeated_of_same hrun hsame).symm.trans hfull
    | false =>
      refine ⟨n₀, s₁, hok, hsame, fun n k => ?_⟩
      obtain ⟨s', hfull⟩ := hstall (max n n₀) (k + 1)
      rw [repeated_of_changed (hok _ (Nat.le_max_right n n₀)) hsame] at hfull
      exact exhausts_of_approx (h.repeated_mono hw hE (Nat.le_max_left n n₀) (Nat.le_refl k) hs₁)
        ⟨s', hfull⟩

/-- A loop without end whose passes do not go on without end comes to a piece without end. -/
theorem Program.exists_loopStalls (hw : w.Closed) (h : Program w E .idle x V .idle)
    (hE : E.Within w) (hs : w.Tracked s)
    (hacc : Acc (fun s' s => (∃ n, x (w.mode checked guard ties n) s = .ok () s') ∧
      s'.refs.sameAs s.refs = false) s)
    (hstall : w.LoopStalls checked guard ties x s) :
    ∃ t s', E.Inner s t s' ∧ Diverges ⟨w.table, w.catalog, checked, guard, ties⟩ t s' ∧
      ∃ n₀, ∀ n k, n₀ ≤ n → n₀ ≤ k → ∀ e, ∃ s₁,
        repeated (x ((w.mode checked guard ties n).planted e t s')) k s = .error e s₁ := by
  induction hacc with
  | intro s _ ih =>
    rcases h.loopStalls_cases hw hE hs hstall with hpass | ⟨n₀, s₁, hok, hsame, hrest⟩
    · obtain ⟨t, s', hinner, -, hdiv, n₀, hcomes⟩ := h.exists_stalls hw hE s hs hpass
      refine ⟨t, s', hinner, hdiv, n₀ + 1, fun n k hn hk e => ?_⟩
      obtain ⟨j, rfl⟩ : ∃ j, k = j + 1 := ⟨k - 1, by omega⟩
      obtain ⟨s₁, h₁⟩ := hcomes n (by omega) e
      exact ⟨s₁, repeated_of_error h₁⟩
    · have hrun := hok n₀ (Nat.le_refl n₀)
      obtain ⟨-, hs₁, hframe⟩ := h.lawful (exec_lawful hw checked guard ties n₀) hE s () s₁ hs hrun
      obtain ⟨t, s', hinner, hdiv, n₁, hcomes⟩ := ih s₁ ⟨⟨n₀, hrun⟩, hsame⟩ hs₁ hrest
      refine ⟨t, s', ?_, hdiv, max n₀ n₁ + 1, fun n k hn hk e => ?_⟩
      · rw [Effects.Inner, ← hframe.running]
        exact hinner
      · obtain ⟨j, rfl⟩ : ∃ j, k = j + 1 := ⟨k - 1, by omega⟩
        obtain ⟨s₂, h₂⟩ := hcomes n j (by omega) (by omega) e
        have happrox := h.planted_approx e t s' (exec_lawful hw checked guard ties n) hE s hs
        rw [hok n (by omega)] at happrox
        rcases happrox with h | ⟨_, s₃, h, rfl⟩
        · exact ⟨s₂, (repeated_of_changed h hsame).trans h₂⟩
        · exact ⟨s₃, repeated_of_error h⟩

end Loops

/-! ### Passes without end -/

section Settled

variable {t : SymbolTable} {cat : Catalog} {N : Nat} {trace : Nat → State}

/-- In a sequence of states, references that are never taken away, or never added, are the same
from some state on. -/
theorem exists_settled (htracked : ∀ i, (World.sized t cat N).Tracked (trace i)) {P : Ref → Prop}
    (hP : ∀ r, P r → r.kind ≠ .expr)
    (h : (∀ i r, P r → r ∈ (trace i).refs → r ∈ (trace (i + 1)).refs) ∨
      ∀ i r, P r → r ∈ (trace (i + 1)).refs → r ∈ (trace i).refs) :
    ∃ n, ∀ i, n ≤ i → ∀ r, P r → (r ∈ (trace i).refs ↔ r ∈ (trace n).refs) := by
  let U := {r // (World.sized t cat N).Tracks r ∧ r.kind ≠ .expr}
  have : Finite U := (World.finite_held t cat N).to_subtype
  rcases h with hkept | hkept
  · let held : ℕ →o Set U := ⟨fun i => {u | P u ∧ u.1 ∈ (trace i).refs},
      monotone_nat_of_le_succ fun i u hu => ⟨hu.1, hkept i u hu.1 hu.2⟩⟩
    obtain ⟨n, hn⟩ := WellFoundedGT.monotone_chain_condition held
    refine ⟨n, fun i hi r hr => ?_⟩
    by_cases hheld : (World.sized t cat N).Tracks r
    · have hiff : _ ↔ _ := Set.ext_iff.mp (hn i hi) ⟨r, hheld, hP r hr⟩
      exact ⟨fun h => (hiff.mpr ⟨hr, h⟩).2, fun h => (hiff.mp ⟨hr, h⟩).2⟩
    · exact iff_of_false (fun h => hheld (htracked i r h)) fun h => hheld (htracked n r h)
  · let free : ℕ →o Set U := ⟨fun i => {u | P u ∧ u.1 ∉ (trace i).refs},
      monotone_nat_of_le_succ fun i u hu => ⟨hu.1, fun h => hu.2 (hkept i u hu.1 h)⟩⟩
    obtain ⟨n, hn⟩ := WellFoundedGT.monotone_chain_condition free
    refine ⟨n, fun i hi r hr => ?_⟩
    by_cases hheld : (World.sized t cat N).Tracks r
    · have hiff : _ ↔ _ := Set.ext_iff.mp (hn i hi) ⟨r, hheld, hP r hr⟩
      exact not_iff_not.mp ⟨fun h => (hiff.mpr ⟨hr, h⟩).2, fun h => (hiff.mp ⟨hr, h⟩).2⟩
    · exact iff_of_false (fun h => hheld (htracked i r h)) fun h => hheld (htracked n r h)

end Settled

/-- Between idle states the results of expressions are the same. -/
theorem Frame.mem_expr_iff {E : Effects} {s s' : State} (h : Frame E s s') (hs : s.In .idle)
    (hs' : s'.In .idle) {r : Ref} (hr : r.kind = .expr) : r ∈ s'.refs ↔ r ∈ s.refs := by
  obtain ⟨k, hk⟩ := Ref.kind_eq_expr_iff.mp hr
  constructor
  · intro hmem
    have hlt : k < s.depth := h.depth ▸ hs' r hmem k hk
    exact (h.exprs r k hk hlt).mp hmem
  · intro hmem
    exact (h.exprs r k hk (hs r hmem k hk)).mpr hmem

section Traces

variable {w : World} {checked : Bool} {guard : Guard} {ties : TieOrder} {stmt : Stmt}

/-- A pass that comes to its end keeps the references inside the bounds, leads from the idle phase
to the idle phase and respects the frame of the loop. -/
theorem Turns.lawful (hw : w.Closed) (hn : w.nodes (.stmt stmt)) {s s' : State}
    (h : Turns ⟨w.table, w.catalog, checked, guard, ties⟩ stmt s s') (hs : w.Tracked s)
    (hp : s.In .idle) : (w.Tracked s' ∧ s'.In .idle) ∧ Frame (.ofTask (.loop stmt)) s s' := by
  obtain ⟨⟨n, hrun⟩, -⟩ := h
  have hpass := program_loopPass hw stmt hn
  have hlawful := exec_lawful hw checked guard ties n
  have hE : (Effects.ofTask (.loop stmt)).Within w := Effects.within_ofTask hw hn
  obtain ⟨-, hs', hframe⟩ := hpass.lawful hlawful hE s () s' hs hrun
  have hin :=
    (steady_in hlawful (exec_tidy hw checked guard ties n)).program hpass hE s () s' hs hp hrun
  exact ⟨⟨hs', hin⟩, hframe⟩

variable {trace : Nat → State}

/-- All states of a sequence of passes are idle and inside the bounds. -/
theorem trace_lawful (hw : w.Closed) (hn : w.nodes (.stmt stmt))
    (hturns : ∀ i, Turns ⟨w.table, w.catalog, checked, guard, ties⟩ stmt (trace i) (trace (i + 1)))
    (hs : w.Tracked (trace 0)) (hp : (trace 0).In .idle) (i : Nat) :
    w.Tracked (trace i) ∧ (trace i).In .idle := by
  induction i with
  | zero => exact ⟨hs, hp⟩
  | succ i ih => exact ((hturns i).lawful hw hn ih.1 ih.2).1

/-- Passes without end change nothing but yielded values from some pass on. -/
theorem settlesButYields {t : SymbolTable} {cat : Catalog} {N : Nat}
    (hw : (World.sized t cat N).Closed) (hn : (World.sized t cat N).nodes (.stmt stmt))
    (hturns : ∀ i, Turns ⟨t, cat, checked, guard, ties⟩ stmt (trace i) (trace (i + 1)))
    (hs : (World.sized t cat N).Tracked (trace 0)) (hp : (trace 0).In .idle) :
    SettlesButYields trace := by
  have htrace := trace_lawful hw hn hturns hs hp
  have hframe (i : Nat) := ((hturns i).lawful hw hn (htrace i).1 (htrace i).2).2
  obtain ⟨n, hsettled⟩ := exists_settled (fun i => (htrace i).1)
    (P := fun r => r.kind ≠ .expr ∧ r.kind ≠ .yielded) (fun r hr => hr.1)
    (.inl fun i r hr hmem => (hframe i).kept r hmem hr.1 fun h => hr.2 h.1)
  refine ⟨n, fun i hi r hr => ?_⟩
  by_cases hexpr : r.kind = .expr
  · have hstart : ∀ i, r ∈ (trace i).refs ↔ r ∈ (trace 0).refs := by
      intro i
      induction i with
      | zero => exact Iff.rfl
      | succ i ih =>
        exact ((hframe i).mem_expr_iff (htrace i).2 (htrace (i + 1)).2 hexpr).trans ih
    exact (hstart i).trans (hstart n).symm
  · exact hsettled i hi r ⟨hexpr, hr⟩

/-- Passes that change yielded values without end take some of them away and yield others. -/
theorem Alternates.takes_and_gives {t : SymbolTable} {cat : Catalog} {N : Nat}
    (hw : (World.sized t cat N).Closed) (hn : (World.sized t cat N).nodes (.stmt stmt)) {s : State}
    (hs : (World.sized t cat N).Tracked s) (hp : s.In .idle)
    (h : Alternates ⟨t, cat, checked, guard, ties⟩ stmt s) :
    (Node.stmt stmt).Takes .yielded ∧ (Node.stmt stmt).Gives .yielded := by
  obtain ⟨trace, hstart, hturns, n, hsettled⟩ := h
  have htrace := trace_lawful hw hn hturns (hstart ▸ hs) (hstart ▸ hp.deeper)
  have hframe (i : Nat) := ((hturns i).lawful hw hn (htrace i).1 (htrace i).2).2
  -- yielded values that are only kept, or only added to, are the same from some pass on
  have hnot : ¬((∀ i r, r.kind = .yielded → r ∈ (trace i).refs → r ∈ (trace (i + 1)).refs) ∨
      ∀ i r, r.kind = .yielded → r ∈ (trace (i + 1)).refs → r ∈ (trace i).refs) := by
    intro h
    obtain ⟨m, hyields⟩ := exists_settled (fun i => (htrace i).1) (P := fun r => r.kind = .yielded)
      (fun r hr => by simp [hr]) h
    have hsame : (trace (max n m + 1)).refs.sameAs (trace (max n m)).refs = true := by
      refine RefSet.sameAs_iff.mpr fun r => ?_
      by_cases hr : r.kind = .yielded
      · exact (hyields _ (by omega) r hr).trans (hyields _ (by omega) r hr).symm
      · exact (hsettled _ (by omega) r hr).trans (hsettled _ (by omega) r hr).symm
    rw [(hturns (max n m)).2] at hsame
    cases hsame
  constructor
  · by_contra htakes
    exact hnot (.inl fun i r hr hmem =>
      (hframe i).kept r hmem (by simp [hr]) fun h => htakes (hr ▸ h))
  · by_contra hgives
    refine hnot (.inr fun i r hr hmem => ?_)
    by_contra hnew
    have hadded := (hframe i).added r hmem (by simp [hr]) hnew
    rw [Ref.kind_eq_yielded_iff.mp hr] at hadded
    exact hgives hadded

end Traces

/-! ### Loops as pieces of a program -/

section Loop

variable {w : World} {checked : Bool} {guard : Guard} {ties : TieOrder} {stmt : Stmt} {s : State}

/-- A loop without end comes to a piece without end, or its passes go on without end. -/
theorem exists_diverges_or_turns (hw : w.Closed) (hn : w.nodes (.stmt stmt)) (hs : w.Tracked s)
    (hdiv : Diverges ⟨w.table, w.catalog, checked, guard, ties⟩ (.loop stmt) s) :
    (∃ t s', (Effects.ofTask (.loop stmt)).Inner s t s' ∧
      Diverges ⟨w.table, w.catalog, checked, guard, ties⟩ t s' ∧
      Calls ⟨w.table, w.catalog, checked, guard, ties⟩ (.loop stmt) s t s') ∨
    ∃ trace : Nat → State, trace 0 = { s with depth := s.depth + 1 } ∧
      ∀ i, Turns ⟨w.table, w.catalog, checked, guard, ties⟩ stmt (trace i) (trace (i + 1)) := by
  have hpass := program_loopPass hw stmt hn
  have hE : (Effects.ofTask (.loop stmt)).Within w := Effects.within_ofTask hw hn
  by_cases hacc : Acc (fun s' s => Turns ⟨w.table, w.catalog, checked, guard, ties⟩ stmt s s')
      { s with depth := s.depth + 1 }
  · refine .inl ?_
    obtain ⟨t, s', hinner, hdiv', n₀, hcomes⟩ := hpass.exists_loopStalls hw hE
      (s := { s with depth := s.depth + 1 }) hs hacc fun n k => by
        have hfull := exhausts_inScope not_exhausts_dropResult (hdiv (max n k + 1))
        exact exhausts_of_approx
          (hpass.repeated_mono hw hE (Nat.le_max_left n k) (Nat.le_max_right n k) hs) hfull
    refine ⟨t, s', hinner, hdiv', n₀, fun e => ?_⟩
    obtain ⟨s₁, h₁⟩ := hcomes n₀ n₀ (Nat.le_refl n₀) (Nat.le_refl n₀) e
    exact ⟨s₁, inScope_error h₁⟩
  · obtain ⟨trace, hstart, hturns⟩ := not_acc_iff_exists_descending_chain.mp hacc
    exact .inr ⟨trace, hstart, hturns⟩

/-- A piece without end comes to a piece without end, or it is a loop whose passes go on without
end. -/
theorem exists_diverges_inside (hw : w.Closed) {task : Task} (hn : w.nodes task.node)
    (hs : w.Tracked s) (hdiv : Diverges ⟨w.table, w.catalog, checked, guard, ties⟩ task s) :
    (∃ t s', (Effects.ofTask task).Inner s t s' ∧
      Diverges ⟨w.table, w.catalog, checked, guard, ties⟩ t s' ∧
      Calls ⟨w.table, w.catalog, checked, guard, ties⟩ task s t s') ∨
    ∃ stmt, task = .loop stmt ∧ ∃ trace : Nat → State,
      trace 0 = { s with depth := s.depth + 1 } ∧
      ∀ i, Turns ⟨w.table, w.catalog, checked, guard, ties⟩ stmt (trace i) (trace (i + 1)) := by
  by_cases hloop : ∃ stmt, task = .loop stmt
  · obtain ⟨stmt, rfl⟩ := hloop
    exact (exists_diverges_or_turns hw hn hs hdiv).imp_right fun hturns => ⟨stmt, rfl, hturns⟩
  · have hx := program_step hw (fun stmt h => hloop ⟨stmt, h⟩) hn
    have hstalls : w.Stalls checked guard ties (fun m => step (w.env m) m.walk m.passes task) s :=
      fun n => hdiv (n + 1)
    obtain ⟨t, s', hinner, -, hdiv', n, hcomes⟩ :=
      hx.exists_stalls hw (Effects.within_ofTask hw hn) s hs hstalls
    exact .inl ⟨t, s', hinner, hdiv', n, hcomes n (Nat.le_refl n)⟩

end Loop

/-- A loop that alternates has no end. -/
theorem Alternates.diverges {env : Env} {stmt : Stmt} {s : State} (h : Alternates env stmt s) :
    Diverges env (.loop stmt) s := by
  obtain ⟨trace, hstart, hturns, -⟩ := h
  have hw := World.all_closed env.table env.catalog
  have hpass := program_loopPass hw stmt trivial
  have hE : (Effects.ofTask (.loop stmt)).Within (World.all env.table env.catalog) :=
    Effects.within_ofTask hw trivial
  have hmono {n n' : Nat} (hn : n ≤ n') (s : State) :
      Approx OutOfSteps (loopPass env (exec env n) stmt s) (loopPass env (exec env n') stmt s) :=
    hpass.mode_mono hw hE hn s (World.all_tracked s)
  have hrepeated (n k : Nat) :
      ∀ i, Exhausts (repeated (loopPass env (exec env n) stmt) k (trace i)) := by
    induction k with
    | zero => exact fun i => ⟨trace i, rfl⟩
    | succ k ih =>
      intro i
      obtain ⟨⟨m, hrun⟩, hchanged⟩ := hturns i
      by_cases hend : Exhausts (loopPass env (exec env n) stmt (trace i))
      · obtain ⟨s', hend⟩ := hend
        exact ⟨s', repeated_of_error hend⟩
      · have hsame := eq_of_approx (hmono (Nat.le_max_left n m) (trace i)) hend
        have hsame' := eq_of_approx (hmono (Nat.le_max_right n m) (trace i)) fun ⟨_, h⟩ => by
          rw [hrun] at h
          cases h
        rw [repeated_of_changed (hsame.trans (hsame'.symm.trans hrun)) hchanged]
        exact ih (i + 1)
  intro n
  cases n with
  | zero => exact ⟨s, rfl⟩
  | succ n =>
    obtain ⟨s', h⟩ := hrepeated n n 0
    rw [hstart] at h
    exact ⟨s', inScope_error h⟩

end EarlyEscape.Interp
