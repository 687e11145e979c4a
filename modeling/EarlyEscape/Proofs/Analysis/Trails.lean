import EarlyEscape.Proofs.Analysis.Session
import EarlyEscape.Proofs.Interp.Sites

/-!
# Trails are call chains

A session that finds a leak reports a trail of positions.  These are the positions of nodes that the
session has come to: the first one leaks, each of the others is the site of a call whose code holds
the node before it, and the last one lies in the statement that the session has ended with.

## Main definitions

* `Interp.Occurrence` : a node in a piece of a program that is interpreted from a state.
* `Interp.Occurrence.EnteredFrom` : an occurrence stands in the code of a call that was entered from
  another one.
* `Interp.LeakChain` : the call chain of a leak.

## Main results

* `Interp.exec_leakChain` : every leak that a piece of a program records has a call chain.
* `Analysis.session_trail_is_leakChain` : so has every trail of a session.
-/

namespace EarlyEscape

namespace Interp

/-! ### Call chains -/

/-- A node of a piece of a program, and the state from which the piece is interpreted. -/
structure Occurrence where
  task : Task
  state : State
  node : Node

/-- The interpretation of a piece from a state comes to another one at once. -/
def Occurrence.Next (env : Env) (a b : Task × State) : Prop := Calls env a.1 a.2 b.1 b.2

/-- The occurrence lies in the piece `t`, which comes to it from the state `s` without any call in
between. -/
structure Occurrence.Inside (env : Env) (t : Task) (s : State) (o : Occurrence) : Prop where
  within : t.node.Within o.node
  comes : Relation.ReflTransGen (Occurrence.Next env) (t, s) (o.task, o.state)
  callStack : o.state.callStack = s.callStack
  running : o.state.running = s.running

/-- The occurrence `a` lies in the code `c` and is interpreted in a call of it that was entered from
the occurrence `b`. -/
structure Occurrence.EnteredFrom (env : Env) (c : Callee) (a b : Occurrence) : Prop where
  site : CallSite env b.task b.state b.node c
  code : c.Holds env.table a.node
  comes : Relation.TransGen (Occurrence.Next env) (b.task, b.state) (a.task, a.state)
  callStack : a.state.callStack = b.node.pos :: b.state.callStack
  running : ∃ seed, a.state.running = (c.decl, seed) :: b.state.running

/-- The call chain of a leak in the interpretation of the piece `t` from the state `s`, innermost
occurrence first: the first occurrence leaks, each one was entered from the next one, and the last
one lies in the piece. -/
structure LeakChain (env : Env) (t : Task) (s : State) (os : List Occurrence) : Prop where
  innermost : ∃ o ∈ os.head?, LeakSite env o.task o.state o.node
  entered : os.IsChain fun a b => ∃ c, a.EnteredFrom env c b
  outermost : ∃ o ∈ os.getLast?, o.Inside env t s

namespace LeakChain

variable {env : Env} {t t' : Task} {s s' : State} {n : Node} {os : List Occurrence}

theorem ne_nil (h : LeakChain env t s os) : os ≠ [] := by
  rintro rfl
  obtain ⟨o, ho, -⟩ := h.innermost
  cases ho

theorem single (h : LeakSite env t s n) : LeakChain env t s [⟨t, s, n⟩] where
  innermost := ⟨_, rfl, h⟩
  entered := .singleton _
  outermost := ⟨_, rfl, h.within, .refl, rfl, rfl⟩

/-- The call chain in a piece that another piece comes to without a call is one in that piece. -/
theorem of_inside (h : LeakChain env t' s' os) (hcalls : Calls env t s t' s')
    (hin : t.node.Within t'.node) (hstack : s'.callStack = s.callStack)
    (hrunning : s'.running = s.running) : LeakChain env t s os where
  innermost := h.innermost
  entered := h.entered
  outermost := by
    obtain ⟨o, ho, hinside⟩ := h.outermost
    have hnext : Occurrence.Next env (t, s) (t', s') := hcalls
    exact ⟨o, ho, hin.trans hinside.within, .head hnext hinside.comes,
      hinside.callStack.trans hstack, hinside.running.trans hrunning⟩

/-- A call adds its site to the call chain in its code. -/
theorem of_call (h : LeakChain env t' s' os) {c : Callee} (hsite : CallSite env t s n c)
    (hcalls : Calls env t s t' s') (hin : c.Holds env.table t'.node)
    (hstack : s'.callStack = n.pos :: s.callStack)
    (hrunning : ∃ seed, s'.running = (c.decl, seed) :: s.running) :
    LeakChain env t s (os ++ [⟨t, s, n⟩]) where
  innermost := by
    obtain ⟨o, ho, hleaks⟩ := h.innermost
    exact ⟨o, List.mem_head?_append_of_mem_head? ho, hleaks⟩
  entered := by
    refine List.isChain_append.mpr ⟨h.entered, .singleton _, ?_⟩
    rintro a ha b ⟨⟩
    obtain ⟨o, ho, hinside⟩ := h.outermost
    obtain rfl := Option.mem_unique ha ho
    obtain ⟨seed, hseed⟩ := hrunning
    have hnext : Occurrence.Next env (t, s) (t', s') := hcalls
    exact ⟨c, hsite, Callee.holds_of_within hin hinside.within, .head' hnext hinside.comes,
      hinside.callStack.trans hstack, seed, hinside.running.trans hseed⟩
  outermost := ⟨_, List.getLast?_concat, hsite.within, .refl, rfl, rfl⟩

end LeakChain

/-- What may come up inside a piece lies in it. -/
theorem Effects.within_of_ofTask {t t' : Task}
    (h : (Effects.ofTask t).now t' ∨ (Effects.ofTask t).later t'.node) :
    t.node.Within t'.node := by
  rcases h with (h | ⟨stmt, rfl, rfl⟩) | h
  · exact h.below.to_reflTransGen
  · exact .refl
  · exact h.to_reflTransGen

/-- Every leak that the interpretation of a piece of a program records has a call chain.  The trail
has the positions of the chain, followed by those of the calls that were running before. -/
theorem exec_leakChain {env : Env} {n : Nat} {t : Task} {s : State} {trail : Trail}
    (h : Records (exec env n t) s trail) :
    ∃ os, LeakChain env t s os ∧ trail = os.map (·.node.pos) ++ s.callStack := by
  induction n generalizing t s with
  | zero =>
    obtain ⟨-, _, _, hrun, -⟩ := h
    cases hrun
  | succ n ih =>
    cases step_blamed h with
    | leak hpos htrail =>
      obtain ⟨site, hsite, rfl⟩ := hpos _ rfl
      exact ⟨_, .single hsite, htrail⟩
    | @inside t' s₁ hin hstack hrunning hrecords hcomes =>
      obtain ⟨os, hchain, htrail⟩ := ih hrecords
      have hcalls : Calls env t s t' s₁ := ⟨n, hcomes⟩
      refine ⟨os, hchain.of_inside hcalls (Effects.within_of_ofTask hin) hstack hrunning, ?_⟩
      rw [htrail, hstack]
    | @call pos c seed t' s₁ hsite hin hstack hrunning hrecords hcomes =>
      obtain ⟨os, hchain, htrail⟩ := ih hrecords
      obtain ⟨site, hentry, rfl⟩ := hsite _ rfl
      have hcalls : Calls env t s t' s₁ := ⟨n, hcomes⟩
      refine ⟨_, hchain.of_call hentry hcalls hin hstack ⟨seed, hrunning⟩, ?_⟩
      rw [htrail, hstack, List.map_append, List.append_assoc]
      rfl

end Interp

namespace Analysis

open Interp

/-! ### Trails of sessions -/

/-- A session that has found a leak has ended with the statement that records it. -/
theorem exists_records {env : Env} {fuel : Nat} {stmts : List (Option Stmt)} {s s' : State}
    {trail : Trail} (hquiet : s.pending = none)
    (h : runUntilLeak (exec env fuel) stmts s = .ok () s') (htrail : s'.pending = some trail) :
    ∃ before stmt after s₁, stmts = before ++ some stmt :: after ∧
      runUntilLeak (exec env fuel) before s = .ok () s₁ ∧ s₁.callStack = s.callStack ∧
      Records (exec env fuel (.stmt stmt)) s₁ trail := by
  induction stmts generalizing s with
  | nil =>
    cases h
    cases hquiet.symm.trans htrail
  | cons stmt stmts ih =>
    obtain ⟨s₁, hrun, hrest⟩ := runUntilLeak_eq_ok h
    cases stmt with
    | none =>
      cases hrun
      rcases hrest with ⟨hleak, -⟩ | ⟨-, hrest⟩
      · exact absurd hquiet hleak
      obtain ⟨before, stmt, after, s₂, rfl, hbefore, hstack, hrecords⟩ := ih hquiet hrest
      refine ⟨none :: before, stmt, after, s₂, rfl, ?_, hstack, hrecords⟩
      exact (runUntilLeak_of_quiet rfl hquiet).trans hbefore
    | some stmt =>
      have hframe := (env.lawful fuel (.stmt stmt) s s₁ trivial (World.all_tracked s) hrun).2
      rcases hrest with ⟨-, rfl⟩ | ⟨hquiet₁, hrest⟩
      · exact ⟨[], stmt, stmts, s, rfl, rfl, rfl, hquiet, (), s', hrun, htrail⟩
      obtain ⟨before, next, after, s₂, rfl, hbefore, hstack, hrecords⟩ := ih hquiet₁ hrest
      refine ⟨some stmt :: before, next, after, s₂, rfl, ?_, hstack.trans hframe.callStack,
        hrecords⟩
      exact (runUntilLeak_of_quiet hrun hquiet₁).trans hbefore

/-- A session has at most one trail, that of the leak that its statements record. -/
theorem session_trails_cases (env : Env) (fuel : Nat) (cls : Option ClassId)
    (stmts : List (Option Stmt)) :
    (session env fuel cls stmts).trails = [] ∨
      ∃ trail s, (session env fuel cls stmts).trails = [trail] ∧
        runUntilLeak (exec env fuel) stmts (.start cls) = .ok () s ∧ s.pending = some trail := by
  rcases session_cases env fuel cls stmts with ⟨e, s, -, h⟩ | ⟨s, -, -, h⟩ | ⟨s, -, -, -, h⟩ |
    ⟨s, trail, name, hrun, hleak, -, h⟩
  · exact .inl (congrArg Outcome.trails h)
  · exact .inl (congrArg Outcome.trails h)
  · exact .inl (congrArg Outcome.trails h)
  · exact .inr ⟨trail, s, congrArg Outcome.trails h, hrun, hleak⟩

/-- The positions in a trail of a session are those in a call chain of the statement that the
session has ended with. -/
theorem exists_leakChain {env : Env} {fuel : Nat} {cls : Option ClassId}
    {stmts : List (Option Stmt)} {trail : Trail}
    (h : trail ∈ (session env fuel cls stmts).trails) :
    ∃ before stmt after s s' os, stmts = before ++ some stmt :: after ∧
      runUntilLeak (exec env fuel) before (.start cls) = .ok () s ∧ s.pending = none ∧
      exec env fuel (.stmt stmt) s = .ok () s' ∧ s'.pending = some trail ∧
      LeakChain env (.stmt stmt) s os ∧ trail = os.map (·.node.pos) := by
  rcases session_trails_cases env fuel cls stmts with hnone | ⟨trail', s, hone, hrun, htrail⟩
  · rw [hnone] at h
    cases h
  rw [hone] at h
  obtain rfl := List.mem_singleton.mp h
  obtain ⟨before, stmt, after, s₁, hstmts, hbefore, hstack, hrecords⟩ :=
    exists_records rfl hrun htrail
  obtain ⟨os, hchain, hos⟩ := exec_leakChain hrecords
  obtain ⟨hquiet, _, s', hstmt, hleak⟩ := hrecords
  refine ⟨before, stmt, after, s₁, s', os, hstmts, hbefore, hquiet, hstmt, hleak, hchain, ?_⟩
  rw [hos, hstack]
  exact List.append_nil _

/-- A session has at most one trail.  It is not empty, and it is the list of the positions in a call
chain: the first node is a throw statement, the site of a call that hands its receivers to unknown
code, or an argument of such a call; each node lies in the code of a call that was entered from the
next node; and the last one lies in the statement that records the leak, with which the session has
ended. -/
theorem session_trail_is_leakChain (env : Env) (fuel : Nat) (cls : Option ClassId)
    (stmts : List (Option Stmt)) :
    (session env fuel cls stmts).trails.length ≤ 1 ∧
    ∀ trail ∈ (session env fuel cls stmts).trails, trail ≠ [] ∧
      ∃ before stmt after s s' os, stmts = before ++ some stmt :: after ∧
        runUntilLeak (exec env fuel) before (.start cls) = .ok () s ∧ s.pending = none ∧
        exec env fuel (.stmt stmt) s = .ok () s' ∧ s'.pending = some trail ∧
        LeakChain env (.stmt stmt) s os ∧ trail = os.map (·.node.pos) := by
  constructor
  · rcases session_trails_cases env fuel cls stmts with hnone | ⟨trail, s, hone, -, -⟩
    · rw [hnone]
      exact Nat.zero_le 1
    · rw [hone]
      exact Nat.le_refl 1
  · intro trail htrail
    obtain ⟨before, stmt, after, s, s', os, hstmts, hbefore, hquiet, hstmt, hleak, hchain, hos⟩ :=
      exists_leakChain htrail
    refine ⟨?_, before, stmt, after, s, s', os, hstmts, hbefore, hquiet, hstmt, hleak, hchain, hos⟩
    rw [hos, ne_eq, List.map_eq_nil_iff]
    exact hchain.ne_nil

/-! ### A trail through a constructor -/

/-- A class `A` with a field and two constructors, and a class `R` with a static method
`register`. -/
def fieldTable : SymbolTable where
  packages := #[{ name := "p" }]
  classes := #[{ name := "Object", owner := some (.package ⟨0⟩) },
    { name := "A", owner := some (.package ⟨0⟩), flags := .of [.publicAccess], super := some ⟨0⟩ },
    { name := "R", owner := some (.package ⟨0⟩), flags := .of [.publicAccess], super := some ⟨0⟩ }]
  methods := #[{ name := "register", owner := some ⟨2⟩, flags := .of [.publicAccess, .static] },
    { name := "<init>", owner := some ⟨1⟩, flags := .of [.publicAccess], isConstructor := true },
    { name := "<init>", owner := some ⟨1⟩, flags := .of [.privateAccess], params := [⟨1⟩],
      isConstructor := true }]
  vars := #[{ name := "f", owner := some (.cls ⟨1⟩), type := some ⟨0⟩, kind := .field },
    { name := "i", kind := .param }]

/-- The receiver, at the position 22. -/
def fieldValue : Expr := .ident ⟨22, 26⟩ "this" none

/-- The field `@SuppressWarnings("this-escape") Object f = R.register(this);`. -/
def fieldDecl : VarDecl where
  span := ⟨20, 27⟩
  sym := some ⟨0⟩
  annotations := [⟨default, "SuppressWarnings", ["this-escape"]⟩]
  init := some (.call ⟨21, 27⟩ (some (.select ⟨21, 22⟩ (some (.typeName ⟨21, 22⟩ (some ⟨2⟩)))
    "register" (some (.method ⟨0⟩)))) [some fieldValue])

/-- The statement `this(1);` at the position 32. -/
def fieldCall : Stmt :=
  .exprStmt ⟨32, 39⟩ (some (.call ⟨32, 39⟩ (some (.ident ⟨32, 36⟩ "this" (some (.method ⟨2⟩))))
    [some (.literal ⟨37, 38⟩ "1")]))

/-- The constructor `public A() { this(1); }`. -/
def fieldConstructor : MethodDecl where
  id := ⟨1⟩
  span := ⟨30, 41⟩
  sym := some ⟨1⟩
  annotations := []
  params := []
  body := some ⟨⟨31, 40⟩, false, [some fieldCall]⟩

/-- The constructor `private A(int i) {}`. -/
def fieldDelegate : MethodDecl where
  id := ⟨2⟩
  span := ⟨50, 54⟩
  sym := some ⟨2⟩
  annotations := []
  params := [⟨⟨51, 52⟩, some ⟨1⟩, [], none⟩]
  body := some ⟨⟨52, 54⟩, false, []⟩

/-- The class `A` with the field and the constructors. -/
def fieldClass : ClassDecl where
  id := ⟨0⟩
  span := ⟨1, 60⟩
  sym := some ⟨1⟩
  annotations := []
  members := [.field fieldDecl, .method fieldConstructor, .method fieldDelegate]

/-- The surroundings of the sessions over the class. -/
def fieldEnv : Env where
  table := fieldTable
  catalog :=
    { entries := [(⟨1⟩, ⟨fieldClass, fieldConstructor, true, true⟩),
        (⟨2⟩, ⟨fieldClass, fieldDelegate, false, true⟩)]
      suppressed := [.var ⟨0⟩]
      analyzable := [fieldClass] }

theorem exec_fieldCall : exec fieldEnv 10 (.stmt fieldCall) (.start (some ⟨1⟩)) =
    .ok () { State.start (some ⟨1⟩) with pending := some [22, 32] } := by
  decide +kernel

/-- The session over the first constructor finds the leak in the initializer of the field, which the
second constructor runs. -/
theorem session_trail_is_leakChain_field :
    (session fieldEnv 10 (some ⟨1⟩) [some fieldCall]).trails = [[22, 32]] ∧
    ∃ before stmt after s s' os, [some fieldCall] = before ++ some stmt :: after ∧
      runUntilLeak (exec fieldEnv 10) before (.start (some ⟨1⟩)) = .ok () s ∧ s.pending = none ∧
      exec fieldEnv 10 (.stmt stmt) s = .ok () s' ∧ s'.pending = some [22, 32] ∧
      LeakChain fieldEnv (.stmt stmt) s os ∧ [22, 32] = os.map (·.node.pos) := by
  have htrails : (session fieldEnv 10 (some ⟨1⟩) [some fieldCall]).trails = [[22, 32]] := by
    decide +kernel
  have htrail : [22, 32] ∈ (session fieldEnv 10 (some ⟨1⟩) [some fieldCall]).trails := by
    rw [htrails]
    exact List.mem_singleton_self _
  exact ⟨htrails,
    ((session_trail_is_leakChain fieldEnv 10 (some ⟨1⟩) [some fieldCall]).2 _ htrail).2⟩

end Analysis

end EarlyEscape
