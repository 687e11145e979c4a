import EarlyEscape.Proofs.Analysis.Session
import EarlyEscape.Proofs.Interp.Loops

/-!
# When sessions come to their end

Simulated calls are nested to a bounded depth only, because a call is not entered while the same
declaration is running from the same references.  What can keep a session from its end is
therefore a loop, and a loop can do so in one way only: by passes that change the yielded values of
a switch around it again and again.

## Main definitions

* `Analysis.Reached` : the pieces of a program that a session comes to, with the states in which it
  does.

## Main results

* `Analysis.session_ends_iff` : a session ends exactly when no loop that it reaches alternates.
* `Analysis.swap_session_never_ends` : a session without end.
-/

namespace EarlyEscape

namespace Analysis

open Interp

/-- The session comes to the piece of a program in the state: the piece is a statement of the
session and the state is that after the statements before it, or it stands in a piece that the
session comes to. -/
inductive Reached (env : Env) (cls : Option ClassId) (stmts : List (Option Stmt)) :
    Task → State → Prop
  | start {before after : List (Option Stmt)} {stmt : Stmt} {fuel : Nat} {s : State}
      (h : stmts = before ++ some stmt :: after)
      (hrun : runUntilLeak (exec env fuel) before (.start cls) = .ok () s)
      (hquiet : s.pending = none) : Reached env cls stmts (.stmt stmt) s
  | inside {t t' : Task} {s s' : State} (h : Reached env cls stmts t s)
      (hcalls : Calls env t s t' s') : Reached env cls stmts t' s'

section Reached

variable {env : Env} {cls : Option ClassId} {stmts : List (Option Stmt)} {t : Task} {s : State}

/-- A session that comes to a piece without end has no end. -/
theorem Reached.not_ends (h : Reached env cls stmts t s) (hdiv : Diverges env t s) :
    ¬Ends env cls stmts := by
  induction h with
  | start h hrun hquiet =>
    rw [ends_iff, not_exists, h]
    exact fun n => not_not_intro (exhausts_of_diverges hrun hquiet hdiv n)
  | inside _ hcalls ih => exact ih (hcalls.diverges hdiv)

end Reached

section Bound

variable {t : SymbolTable} {cat : Catalog} {checked : Bool} {cls : Option ClassId}
  {stmts : List (Option Stmt)} {N : Nat}

/-- In a world that is large enough for the session, the state is ready wherever it comes to. -/
theorem Reached.ready (hw : (World.sized t cat N).Closed)
    (hcls : ∀ k, cls = some k → k.index < N) (hstmts : sizeOf stmts ≤ N) {task : Task} {s : State}
    (h : Reached ⟨t, cat, checked, .running, ties⟩ cls stmts task s) :
    (World.sized t cat N).nodes task.node ∧ (World.sized t cat N).Tracked s ∧
      Ready (World.sized t cat N) .idle s := by
  have hsteady (n : Nat) := steady_ready (exec_lawful hw checked .running ties n)
    (exec_tidy hw checked .running ties n) rfl
  have hnode (stmt : Stmt) (hmem : some stmt ∈ stmts) :
      (World.sized t cat N).nodes (.stmt stmt) := by
    have hlt := List.sizeOf_lt_of_mem hmem
    change sizeOf (Node.stmt stmt) ≤ N
    simp only [Option.some.sizeOf_spec, Node.stmt.sizeOf_spec] at hlt ⊢
    omega
  induction h with
  | @start before after stmt fuel s h hrun hquiet =>
    have hstart : (World.sized t cat N).Tracked (.start cls) := by
      intro r hr
      obtain rfl : r = .start cls := by simpa [State.start] using hr
      exact ⟨hcls, rfl, fun v hv => by cases hv⟩
    obtain ⟨hs, hready⟩ := runUntilLeak_steady (exec_lawful hw checked .running ties fuel)
      (hsteady fuel) (fun x hx => hnode x (by simp [h, hx])) hstart (ready_start cls) hrun
    exact ⟨hnode stmt (by simp [h]), hs, hready⟩
  | inside _ hcalls ih => exact hcalls.steady hw hsteady ih.1 ih.2.1 ih.2.2

/-- For every session there is a world that is large enough. -/
theorem exists_world (t : SymbolTable) (cat : Catalog) (cls : Option ClassId)
    (stmts : List (Option Stmt)) :
    ∃ N, (World.sized t cat N).Closed ∧ (∀ k, cls = some k → k.index < N) ∧ sizeOf stmts ≤ N := by
  obtain ⟨n, hclosed⟩ := World.exists_sized_closed t cat
  refine ⟨n + sizeOf stmts + cls.elim 0 (·.index + 1), hclosed _ (by omega), ?_, by omega⟩
  rintro k rfl
  simp only [Option.elim_some]
  omega

/-- If the session reaches a piece without end, then it reaches a loop that alternates.  The pieces
that it comes to on the way down get smaller or stand in more and more calls. -/
theorem Reached.exists_alternates (hw : (World.sized t cat N).Closed)
    (hcls : ∀ k, cls = some k → k.index < N) (hstmts : sizeOf stmts ≤ N) {bound : Nat}
    (hbound : ∀ task s, Reached ⟨t, cat, checked, .running, ties⟩ cls stmts task s →
      s.running.length ≤ bound)
    (task : Task) (s : State) (h : Reached ⟨t, cat, checked, .running, ties⟩ cls stmts task s)
    (hdiv : Diverges ⟨t, cat, checked, .running, ties⟩ task s) :
    ∃ stmt s', Reached ⟨t, cat, checked, .running, ties⟩ cls stmts (.loop stmt) s' ∧
      Alternates ⟨t, cat, checked, .running, ties⟩ stmt s' := by
  obtain ⟨hn, hs, hready⟩ := h.ready hw hcls hstmts
  rcases exists_diverges_inside hw hn hs hdiv with
    ⟨t', s', hinner, hdiv', hcalls⟩ | ⟨stmt, rfl, trace, hstart, hturns⟩
  · have hreached := h.inside hcalls
    have hle := hbound t' s' hreached
    have hsize := hinner.size_lt
    exact exists_alternates hw hcls hstmts hbound t' s' hreached hdiv'
  · exact ⟨stmt, s, h, trace, hstart, hturns,
      settlesButYields hw hn hturns (hstart ▸ hs) (hstart ▸ hready.phase.deeper)⟩
termination_by (bound - s.running.length, task.size)
decreasing_by
  rcases hsize with ⟨hrunning, hlt⟩ | hlt
  · rw [hrunning]
    exact Prod.Lex.right _ hlt
  · exact Prod.Lex.left _ _ (by omega)

end Bound

/-- The number of calls that are running at a time in a session is bounded.  The session comes to
its end exactly when no loop that it reaches changes yielded values without end, and then all that
it reaches comes to its end.  A loop that does so runs a switch that takes yielded values, and
yields. -/
theorem session_ends_iff (t : SymbolTable) (cat : Catalog) (checked : Bool)
    (cls : Option ClassId) (stmts : List (Option Stmt)) :
    (∃ bound, ∀ task s, Reached ⟨t, cat, checked, .running, ties⟩ cls stmts task s →
      s.running.length ≤ bound) ∧
    (Ends ⟨t, cat, checked, .running, ties⟩ cls stmts ↔
      ∀ stmt s, Reached ⟨t, cat, checked, .running, ties⟩ cls stmts (.loop stmt) s →
        ¬Alternates ⟨t, cat, checked, .running, ties⟩ stmt s) ∧
    (Ends ⟨t, cat, checked, .running, ties⟩ cls stmts →
      ∀ task s, Reached ⟨t, cat, checked, .running, ties⟩ cls stmts task s →
        ∃ fuel, ¬Exhausts (exec ⟨t, cat, checked, .running, ties⟩ fuel task s)) ∧
    ∀ stmt s, Reached ⟨t, cat, checked, .running, ties⟩ cls stmts (.loop stmt) s →
      Alternates ⟨t, cat, checked, .running, ties⟩ stmt s →
      (Node.stmt stmt).Takes .yielded ∧ (Node.stmt stmt).Gives .yielded := by
  obtain ⟨N, hw, hcls, hstmts⟩ := exists_world t cat cls stmts
  have hready (task : Task) (s : State)
      (h : Reached ⟨t, cat, checked, .running, ties⟩ cls stmts task s) := h.ready hw hcls hstmts
  have hbound (task : Task) (s : State)
      (h : Reached ⟨t, cat, checked, .running, ties⟩ cls stmts task s) :=
    (hready task s h).2.2.length_running_le hw
  refine ⟨⟨_, hbound⟩, ⟨fun hends stmt s h halternates => ?_, fun hno => ?_⟩, ?_, ?_⟩
  · exact h.not_ends halternates.diverges hends
  · by_contra hends
    rw [ends_iff, not_exists] at hends
    obtain ⟨before, stmt, after, n, s, hstmts', hrun, hquiet, hdiv⟩ :=
      exists_diverges _ stmts (s := .start cls) rfl fun n => not_not.mp (hends n)
    obtain ⟨stmt', s', hreached, halternates⟩ := Reached.exists_alternates hw hcls hstmts hbound
      (.stmt stmt) s (.start hstmts' hrun hquiet) hdiv
    exact hno stmt' s' hreached halternates
  · intro hends task s h
    exact not_forall.mp fun hdiv => h.not_ends hdiv hends
  · intro stmt s h halternates
    obtain ⟨hn, hs, hp⟩ := hready (.loop stmt) s h
    exact halternates.takes_and_gives hw hn hs hp.phase

/-! ### A session without end -/

/-- A class `A`, an interface `I` with a method `m`, and classes `P` and `Q` that implement it. -/
def swapTable : SymbolTable where
  packages := #[{ name := "p" }]
  classes := #[{ name := "Object", owner := some (.package ⟨0⟩) },
    { name := "A", owner := some (.package ⟨0⟩), flags := .of [.publicAccess], super := some ⟨0⟩ },
    { name := "I", owner := some (.package ⟨0⟩) },
    { name := "P", owner := some (.package ⟨0⟩), super := some ⟨0⟩, interfaces := [⟨2⟩] },
    { name := "Q", owner := some (.package ⟨0⟩), super := some ⟨0⟩, interfaces := [⟨2⟩] }]
  methods := #[{ name := "m", owner := some ⟨2⟩ }, { name := "m", owner := some ⟨3⟩ },
    { name := "m", owner := some ⟨4⟩ },
    { name := "<init>", owner := some ⟨1⟩, flags := .of [.publicAccess], params := [⟨1⟩],
      isConstructor := true }]
  vars := #[{ name := "i", type := some ⟨2⟩ }, { name := "b", kind := .param }]

/-- The receiver, cast to a class. -/
def castThis (c : ClassId) : Option Expr :=
  some (.cast default (some c) (some (.cast default (some .object)
    (some (.ident default "this" none)))))

/-- The parameter `b`. -/
def swapFlag : Option Expr := some (.ident default "b" (some (.var ⟨1⟩)))

/-- A switch with a value that has one case. -/
def swapSwitch (body : List (Option Stmt)) : Expr :=
  .switchExpr default (some (.literal default "0")) [⟨default, [], [], none, body⟩]

/-- The loop `while (b) yield (switch (0) { default: yield (I) null; }).m();`. -/
def swapLoop : Stmt :=
  .whileLoop default swapFlag (some (.yieldStmt default (some (.call default
    (some (.select default (some (.paren default (some (swapSwitch
      [some (.yieldStmt default
        (some (.cast default (some ⟨2⟩) (some (.literal default "null")))))]))))
      "m" (some (.method ⟨0⟩)))) []))))

/-- The statement `if (b) yield (P) (Object) this;`. -/
def swapFirst : Stmt :=
  .ifElse default swapFlag (some (.yieldStmt default (castThis ⟨3⟩))) none

/-- The declaration of a variable with these statements in a switch. -/
def swapStmts : List (Option Stmt) :=
  [some (.varDecl ⟨default, some ⟨0⟩, [], some (swapSwitch
    [some swapFirst, some swapLoop, some (.yieldStmt default (some (.literal default "null")))])⟩)]

/-- The constructor of `A` with this declaration. -/
def swapConstructor : MethodDecl where
  id := ⟨3⟩
  span := default
  sym := some ⟨3⟩
  annotations := []
  params := [⟨default, some ⟨1⟩, [], none⟩]
  body := some ⟨default, false, swapStmts⟩

/-- The method `m` that returns its receiver, cast to a class. -/
def swapMethod (i : DeclId) (m : MethodId) (target : ClassId) : MethodDecl where
  id := i
  span := default
  sym := some m
  annotations := []
  params := []
  body := some ⟨default, false, [some (.returnStmt default (castThis target))]⟩

/-- A class with one method or constructor. -/
def swapClass (i : DeclId) (c : ClassId) (md : MethodDecl) : ClassDecl where
  id := i
  span := default
  sym := some c
  annotations := []
  members := [.method md]

/-- The unit with the classes `A`, `P` and `Q`: the method `m` of `P` returns its receiver as a `Q`,
and that of `Q` returns it as a `P`. -/
def swapUnit : CompilationUnit where
  span := default
  name := "A.java"
  package := some ⟨0⟩
  module := none
  classes := [swapClass ⟨0⟩ ⟨1⟩ swapConstructor, swapClass ⟨1⟩ ⟨3⟩ (swapMethod ⟨4⟩ ⟨1⟩ ⟨4⟩),
    swapClass ⟨2⟩ ⟨4⟩ (swapMethod ⟨5⟩ ⟨2⟩ ⟨3⟩)]

/-- The surroundings of the sessions over the unit. -/
def swapEnv : Env where
  table := swapTable
  catalog :=
    { entries := [(⟨3⟩, ⟨swapClass ⟨0⟩ ⟨1⟩ swapConstructor, swapConstructor, true, true⟩),
        (⟨1⟩, ⟨swapClass ⟨1⟩ ⟨3⟩ (swapMethod ⟨4⟩ ⟨1⟩ ⟨4⟩), swapMethod ⟨4⟩ ⟨1⟩ ⟨4⟩, false, true⟩),
        (⟨2⟩, ⟨swapClass ⟨2⟩ ⟨4⟩ (swapMethod ⟨5⟩ ⟨2⟩ ⟨3⟩), swapMethod ⟨5⟩ ⟨2⟩ ⟨3⟩, false, true⟩)]
      nonPublic := [⟨4⟩, ⟨3⟩]
      analyzable := [swapClass ⟨0⟩ ⟨1⟩ swapConstructor] }

/-- The state at a depth with a yielded value of a class. -/
def swapState (c : ClassId) (depth : Int) : State :=
  { State.start (some ⟨1⟩) with
    refs := .ofList [.start (some ⟨1⟩), ⟨.yielded, some c, .direct⟩], depth }

theorem swapLoop_turns :
    Turns swapEnv swapLoop (swapState ⟨3⟩ 2) (swapState ⟨4⟩ 2) ∧
      Turns swapEnv swapLoop (swapState ⟨4⟩ 2) (swapState ⟨3⟩ 2) :=
  ⟨⟨⟨12, by decide +kernel⟩, by decide⟩, ⟨12, by decide +kernel⟩, by decide⟩

theorem swapLoop_alternates : Alternates swapEnv swapLoop (swapState ⟨3⟩ 1) := by
  refine ⟨fun i => swapState (if i % 2 = 0 then ⟨3⟩ else ⟨4⟩) 2, rfl, fun i => ?_, 0, ?_⟩
  · rcases Nat.mod_two_eq_zero_or_one i with h | h
    · simpa [h, Nat.add_mod] using swapLoop_turns.1
    · simpa [h, Nat.add_mod] using swapLoop_turns.2
  · intro i _ r hr
    have hmem (c : ClassId) : r ∈ (swapState c 2).refs ↔ r = .start (some ⟨1⟩) := by
      simp only [swapState, RefSet.mem_ofList, List.mem_cons, List.not_mem_nil, or_false]
      refine or_iff_left ?_
      rintro rfl
      exact hr rfl
    exact (hmem _).trans (hmem _).symm

theorem swapLoop_diverges : Diverges swapEnv (.stmt swapLoop) (swapState ⟨3⟩ 1) := by
  refine diverges_of_step 0 fun n _ => ?_
  obtain ⟨s, h⟩ := swapLoop_alternates.diverges n
  exact ⟨s, bind_error h⟩

theorem swapFirst_ok {n : Nat} (hn : 8 ≤ n) :
    exec swapEnv n (.stmt swapFirst) { State.start (some ⟨1⟩) with depth := 1 } =
      .ok () (swapState ⟨3⟩ 1) := by
  have hrun : exec swapEnv 8 (.stmt swapFirst) { State.start (some ⟨1⟩) with depth := 1 } =
      .ok () (swapState ⟨3⟩ 1) := by decide +kernel
  have hmore := exec_mono swapEnv hn (.stmt swapFirst) { State.start (some ⟨1⟩) with depth := 1 }
  rw [hrun] at hmore
  exact hmore.ok

theorem swapSwitch_diverges (after : List (Option Stmt)) :
    Diverges swapEnv (.expr (swapSwitch (some swapFirst :: some swapLoop :: after)))
      (.start (some ⟨1⟩)) := by
  refine diverges_of_step 8 fun n hn => ?_
  obtain ⟨k, rfl⟩ : ∃ k, n = k + 8 := ⟨n - 8, by omega⟩
  have hselector : value swapEnv (exec swapEnv (k + 8)) (some (.literal default "0"))
      { State.start (some ⟨1⟩) with depth := 1 } =
        .ok [] { State.start (some ⟨1⟩) with depth := 1 } := rfl
  obtain ⟨s, hloop⟩ := swapLoop_diverges (k + 8)
  refine ⟨s, inScope_error ((bind_ok hselector).trans (bind_error (bind_error ?_)))⟩
  -- the case has no labels, no bindings and no guard
  refine (bind_ok (a := ()) rfl).trans ((bind_ok (a := ()) rfl).trans
    ((bind_ok (a := ()) rfl).trans ?_))
  exact (bind_ok (swapFirst_ok hn)).trans (bind_error hloop)

/-- In the switch the value `(P) this` is yielded.  The switch inside the loop takes it, the call of
`m` turns it into a `Q`, which is yielded, the next pass turns that into a `P`, and so on: the
session over the constructor has no end. -/
theorem swap_session_never_ends :
    Catalog.build swapTable swapUnit { enabled := true } = .ok swapEnv.catalog ∧
    (∃ d ∈ swapEnv.catalog.analyzable, ∃ ctor ∈ analyzableConstructors swapEnv d,
      ∀ fuel, (constructor swapEnv fuel d ctor).stop = some .exhausted) := by
  refine ⟨by cbv, swapClass ⟨0⟩ ⟨1⟩ swapConstructor, List.mem_cons_self, swapConstructor,
    List.mem_filter.mpr ⟨List.mem_filter.mpr ⟨List.mem_cons_self, rfl⟩, by decide⟩,
    fun fuel => session_stop_iff.mpr ?_⟩
  have hstart : runUntilLeak (exec swapEnv 0) [] (.start (some ⟨1⟩)) =
      .ok () (.start (some ⟨1⟩)) := rfl
  refine exhausts_of_diverges hstart rfl (diverges_of_step 0 fun n _ => ?_) fuel
  obtain ⟨s, h⟩ := swapSwitch_diverges
    [some (.yieldStmt default (some (.literal default "null")))] n
  exact ⟨s, bind_error (bind_error h)⟩

end Analysis

end EarlyEscape
