import EarlyEscape.Proofs.Analysis.Report
import EarlyEscape.Proofs.Interp.Parentheses

/-!
# Sessions and parentheses

Parentheses do not change what the analysis finds.  They may be added around every expression of a
unit, except where the name of a callee, the call of another constructor or the creation of an
instance by the operand of a for-each loop would be hidden.  Then every statement leads from every
state to the same results, and the sessions come to the same states and trails.

The exception for the operand of a for-each loop is one of the analysis, not of the language.  The
calls that the loop makes are simulated with the operand as their place, and a call that unknown
code gets is taken to create an instance if its place is the creation of one, even if the call is
that of `iterator()`.

## Main definitions

* `Analysis.Session.WithParens` : the second session is the first one with parentheses added.
* `Analysis.SameSession` : two sessions come to the same states and outcomes.

## Main results

* `Analysis.sessions_withParens` : parentheses change neither the results of statements nor the
  states and outcomes of sessions.
* `Analysis.parens_hide_leak` : parentheses around the operand of a for-each loop that creates an
  instance change a trail.
-/

namespace EarlyEscape

namespace Analysis

open Interp Function

/-! ### Statements of a session -/

/-- A session comes to the same results if parentheses are taken off at no cost. -/
theorem comesTo_runUntilLeak_bare_iff (env : Env) (stmts : List (Option Stmt)) (s : State)
    (r : EStateM.Result Stop State Unit) :
    ComesTo (fun n => runUntilLeak (exec env n) stmts s) r ↔
      ComesTo (fun n => runUntilLeak (bare env n) stmts s) r := by
  obtain ⟨k, hk⟩ := exists_bare_approx_exec env (sizeOf stmts)
  refine comesTo_congr (fun n => ⟨n, ?_⟩) (fun n => ⟨n * k, ?_⟩) r
  · refine runUntilLeak_approx (fun stmt _ s => ?_) s
    cases stmt with
    | none => exact .refl
    | some stmt => exact exec_approx_bare env (Nat.le_refl n) (.stmt stmt) s
  · refine runUntilLeak_approx (fun stmt hmem s => ?_) s
    cases stmt with
    | none => exact .refl
    | some stmt =>
      refine hk n (.stmt stmt) s ?_
      have hlt := List.sizeOf_lt_of_mem hmem
      simp only [Option.some.sizeOf_spec, Task.node, Node.stmt.sizeOf_spec] at hlt ⊢
      omega

section WithParens

variable {env : Env} {cat : Catalog} {stmts stmts' : List (Option Stmt)}

theorem runUntilLeak_bare_eq (h : env.catalog.WithParens cat)
    (hstmts : List.Forall₂ (Option.Rel (Node.WithParens on .stmt)) stmts stmts') (n : Nat) :
    runUntilLeak (bare env n) stmts =
      runUntilLeak (bare { env with catalog := cat } n) stmts' := by
  induction hstmts with
  | nil => rfl
  | @cons stmt stmt' _ _ hstmt _ ih =>
    have hrun : Interp.runStmt (bare env n) stmt =
        Interp.runStmt (bare { env with catalog := cat } n) stmt' := by
      cases hstmt with
      | none => rfl
      | some hstmt => exact bare_eq h n (.stmt hstmt)
    simp only [runUntilLeak, hrun, ih]

/-- Statements come to the same results if parentheses are added, there and in the catalog. -/
theorem comesTo_runUntilLeak_withParens (h : env.catalog.WithParens cat)
    (hstmts : List.Forall₂ (Option.Rel (Node.WithParens on .stmt)) stmts stmts') (s : State)
    (r : EStateM.Result Stop State Unit) :
    ComesTo (fun n => runUntilLeak (exec env n) stmts s) r ↔
      ComesTo (fun n => runUntilLeak (exec { env with catalog := cat } n) stmts' s) r := by
  rw [comesTo_runUntilLeak_bare_iff, comesTo_runUntilLeak_bare_iff]
  simp only [runUntilLeak_bare_eq h hstmts]

end WithParens

/-! ### Sessions -/

/-- The second session is the first one with parentheses added. -/
structure Session.WithParens (s s' : Session) : Prop where
  cls : Node.WithParens (.ofClassDecl s.cls) (.ofClassDecl s'.cls)
  stmts : List.Forall₂ (Option.Rel (Node.WithParens on .stmt)) s.stmts s'.stmts

/-- The two sessions, each with its surroundings, come to the same results after each of their
statements, and to the same outcomes. -/
structure SameSession (env env' : Env) (s s' : Session) : Prop where
  results : ∀ k r,
    ComesTo (fun n => runUntilLeak (exec env n) (s.stmts.take k) (.start s.cls.sym)) r ↔
      ComesTo (fun n => runUntilLeak (exec env' n) (s'.stmts.take k) (.start s'.cls.sym)) r
  outcome : ∀ o : Outcome, o.stop ≠ some .exhausted →
    ((∃ n, s.outcome env n = o) ↔ ∃ n, s'.outcome env' n = o)

/-- The outcome of a session over a class whose statements come to a result. -/
def outcomeOf (t : SymbolTable) (cls : Option ClassId) :
    EStateM.Result Stop State Unit → Outcome
  | .error e s => { log := s.log, stop := some e }
  | .ok _ s =>
    match s.pending, t.classText? cls with
    | none, _ => { log := s.log }
    | some _, none => { log := s.log, stop := some .missing }
    | some trail, some name =>
      { trails := [trail], log := s.log ++ [.possibleEscape name trail.length] }

theorem session_eq_outcomeOf (env : Env) (n : Nat) (cls : Option ClassId)
    (stmts : List (Option Stmt)) :
    session env n cls stmts =
      outcomeOf env.table cls (runUntilLeak (exec env n) stmts (.start cls)) := by
  unfold session sessionBy outcomeOf EStateM.run
  rfl

/-- A session comes to the outcomes of the results that its statements come to. -/
theorem exists_session_eq_iff (env : Env) (cls : Option ClassId) (stmts : List (Option Stmt))
    {o : Outcome} (ho : o.stop ≠ some .exhausted) :
    (∃ n, session env n cls stmts = o) ↔
      ∃ r, ComesTo (fun n => runUntilLeak (exec env n) stmts (.start cls)) r ∧
        outcomeOf env.table cls r = o := by
  constructor
  · rintro ⟨n, rfl⟩
    exact ⟨_, ⟨fun hend => ho (session_stop_iff.mpr hend), n, rfl⟩,
      (session_eq_outcomeOf env n cls stmts).symm⟩
  · rintro ⟨r, ⟨-, n, rfl⟩, rfl⟩
    exact ⟨n, session_eq_outcomeOf env n cls stmts⟩

theorem Session.WithParens.sameSession {env : Env} {cat : Catalog}
    (h : env.catalog.WithParens cat) {s s' : Session} (hs : s.WithParens s') :
    SameSession env { env with catalog := cat } s s' := by
  have hsym : s.cls.sym = s'.cls.sym := by
    obtain ⟨_, ⟨⟩, -, -, hsym, -⟩ := hs.cls.cls
    exact hsym
  refine ⟨fun k r => ?_, fun o ho => ?_⟩
  · rw [← hsym]
    exact comesTo_runUntilLeak_withParens h (List.forall₂_take k hs.stmts) _ r
  · change (∃ n, session env n s.cls.sym s.stmts = o) ↔
      ∃ n, session { env with catalog := cat } n s'.cls.sym s'.stmts = o
    rw [← hsym, exists_session_eq_iff _ _ _ ho, exists_session_eq_iff _ _ _ ho]
    simp only [comesTo_runUntilLeak_withParens h hs.stmts]

/-! ### The sessions of a unit -/

section Sessions

variable {env : Env} {cat : Catalog} {d d' : ClassDecl}

theorem initializerStmts_withParens (h : env.catalog.WithParens cat) {m m' : Member}
    (hm : Node.MemberWithParens m m') :
    Option.Rel (List.Forall₂ (Option.Rel (Node.WithParens on .stmt))) (initializerStmts env m)
      (initializerStmts { env with catalog := cat } m') := by
  cases hm with
  | initializer hb => exact .some ((codeRel_withParens env.table).block hb)
  | @field f f' hf =>
    obtain ⟨hsym, -⟩ := hf.varDecl
    have hsuppressed : (f.sym.any fun v => env.catalog.isSuppressed (.var v)) =
        f'.sym.any fun v => cat.isSuppressed (.var v) := by
      simp only [Catalog.isSuppressed, h.suppressed, hsym]
    change Option.Rel _
      (if (f.sym.any fun v => env.catalog.isSuppressed (.var v)) then none else _)
      (if (f'.sym.any fun v => cat.isSuppressed (.var v)) then none else _)
    rw [hsuppressed]
    split
    · exact .none
    · exact .some (.cons (.some hf) .nil)
  | _ => exact .none

theorem analyzableConstructors_withParens (h : env.catalog.WithParens cat)
    (hmembers : List.Forall₂ (Node.WithParens on .ofMember) d.members d'.members) :
    List.Forall₂ (Node.WithParens on .method) (analyzableConstructors env d)
      (analyzableConstructors { env with catalog := cat } d') := by
  refine List.rel_filter (fun md md' hmd => ?_) (List.rel_filter (fun md md' hmd => ?_)
    (Node.WithParens.methods hmembers))
  · obtain ⟨-, hsym, -⟩ := Node.WithParens.method hmd
    have hentry := h.lookup? md.sym
    dsimp only
    rw [← hsym]
    generalize env.catalog.lookup? md.sym = o, cat.lookup? md.sym = o' at hentry
    cases hentry with
    | none => rfl
    | some he => simp only [Option.any_some, he.analyzable]
  · obtain ⟨-, hsym, -⟩ := Node.WithParens.method hmd
    simp only [MethodDecl.isConstructor, hsym]

theorem classSessions_withParens (h : env.catalog.WithParens cat) (config : Config)
    (hd : Node.WithParens (.ofClassDecl d) (.ofClassDecl d')) :
    List.Forall₂ Session.WithParens (classSessions env config d)
      (classSessions { env with catalog := cat } config d') := by
  obtain ⟨_, ⟨⟩, -, -, -, -, hmembers⟩ := hd.cls
  have hinit : List.Forall₂ (List.Forall₂ (Option.Rel (Node.WithParens on .stmt)))
      ((d.initializers env.table).filterMap (initializerStmts env))
      ((d'.initializers env.table).filterMap (initializerStmts { env with catalog := cat })) := by
    refine List.rel_filterMap (fun m m' hm => ?_)
      (Node.WithParens.initializers hmembers env.table)
    exact initializerStmts_withParens h (Node.WithParens.member hm)
  have hctors : List.Forall₂ (List.Forall₂ (Option.Rel (Node.WithParens on .stmt)))
      ((analyzableConstructors env d).filterMap fun m => m.body.map (·.stmts))
      ((analyzableConstructors { env with catalog := cat } d').filterMap fun m =>
        m.body.map (·.stmts)) := by
    refine List.rel_filterMap (fun md md' hmd => ?_) (analyzableConstructors_withParens h hmembers)
    obtain ⟨-, -, -, -, hbody⟩ := Node.WithParens.method hmd
    generalize md.body = b, md'.body = b' at hbody
    cases hbody with
    | none => exact .none
    | some hb => exact .some ((codeRel_withParens env.table).block hb)
  refine List.rel_map (fun _ _ hstmts => ⟨hd, hstmts⟩) (List.rel_append ?_ hctors)
  split
  · exact hinit
  · exact .nil

end Sessions

/-- Parentheses are transparent.  Of a unit without and with parentheses both have no catalog, for
the same reason, or both have one.  Then every statement comes from every state to the same results,
so do the sessions over statements with parentheses added, and these are the sessions of the
analysis. -/
theorem sessions_withParens (t : SymbolTable) (config : Config) {u u' : CompilationUnit}
    (h : Node.WithParens (.file u) (.file u')) :
    SameResult (fun cat cat' =>
        let env : Env := { table := t, catalog := cat, checked := config.invariants }
        let env' : Env := { table := t, catalog := cat', checked := config.invariants }
        (∀ stmt stmt', Node.WithParens (.stmt stmt) (.stmt stmt') → ∀ s r,
          ComesTo (exec env · (.stmt stmt) s) r ↔ ComesTo (exec env' · (.stmt stmt') s) r) ∧
        (∀ s s', Session.WithParens s s' → SameSession env env' s s') ∧
        List.Forall₂ Session.WithParens (sessions env config) (sessions env' config))
      (Catalog.build t u { enabled := config.enabled })
      (Catalog.build t u' { enabled := config.enabled }) := by
  have hcat := Catalog.build_withParens t h { enabled := config.enabled }
  generalize Catalog.build t u _ = r, Catalog.build t u' _ = r' at hcat
  cases hcat with
  | error => exact .error
  | @ok cat cat' hcat =>
    let env : Env := { table := t, catalog := cat, checked := config.invariants }
    refine .ok ⟨fun stmt stmt' hstmt s r => ?_, fun s s' hs => ?_, ?_⟩
    · exact @comesTo_withParens env cat' hcat _ _ (.stmt hstmt) s r
    · exact @Session.WithParens.sameSession env cat' hcat s s' hs
    · exact List.rel_flatMap hcat.analyzable fun d d' hd =>
        @classSessions_withParens env cat' d d' hcat config hd

/-! ### The operand of a for-each loop -/

/-- A class `A` with a constructor and a member class `Inner`.  Both extend `Lib`, which stands
outside the unit and can be iterated over. -/
def loopTable : SymbolTable where
  packages := #[{ name := "p" }]
  classes := #[{ name := "Object", owner := some (.package ⟨0⟩), flags := .of [.publicAccess] },
    { name := "A", owner := some (.package ⟨0⟩), flags := .of [.publicAccess], super := some ⟨2⟩ },
    { name := "Lib", owner := some (.package ⟨0⟩), flags := .of [.publicAccess],
      super := some ⟨0⟩, methods := [⟨2⟩] },
    { name := "It", owner := some (.package ⟨0⟩), flags := .of [.publicAccess], super := some ⟨0⟩,
      methods := [⟨3⟩, ⟨4⟩] },
    { name := "Inner", owner := some (.cls ⟨1⟩), kind := .member, super := some ⟨2⟩,
      hasOuter := true }]
  methods := #[
    { name := "<init>", owner := some ⟨1⟩, flags := .of [.publicAccess], isConstructor := true },
    { name := "<init>", owner := some ⟨4⟩, isConstructor := true },
    { name := "iterator", owner := some ⟨2⟩, flags := .of [.publicAccess], result := some ⟨3⟩ },
    { name := "hasNext", owner := some ⟨3⟩, flags := .of [.publicAccess] },
    { name := "next", owner := some ⟨3⟩, flags := .of [.publicAccess], result := some ⟨0⟩ }]
  vars := #[{ name := "v", type := some ⟨0⟩ }]

/-- The statement `for (Object v : x) ;`. -/
def loopStmt (x : Expr) : Stmt :=
  .forEach ⟨10, 15⟩ (some ⟨⟨11, 12⟩, some ⟨0⟩, [], none⟩) (some x) (some (.empty ⟨14, 15⟩))

/-- The constructor `public A() { for (Object v : x) ; }`. -/
def loopConstructor (x : Expr) : MethodDecl where
  id := ⟨1⟩
  span := ⟨5, 17⟩
  sym := some ⟨0⟩
  annotations := []
  params := []
  body := some ⟨⟨6, 17⟩, false, [some (loopStmt x)]⟩

/-- The constructor `Inner() {}`. -/
def innerConstructor : MethodDecl where
  id := ⟨3⟩
  span := ⟨21, 24⟩
  sym := some ⟨1⟩
  annotations := []
  params := []
  body := some ⟨⟨22, 24⟩, false, []⟩

/-- The class `class Inner extends Lib { Inner() {} }`. -/
def innerClass : ClassDecl where
  id := ⟨2⟩
  span := ⟨20, 25⟩
  sym := some ⟨4⟩
  annotations := []
  members := [.method innerConstructor]

/-- The class `A` with the constructor and the class `Inner`. -/
def loopClass (x : Expr) : ClassDecl where
  id := ⟨0⟩
  span := ⟨1, 26⟩
  sym := some ⟨1⟩
  annotations := []
  members := [.method (loopConstructor x), .nested innerClass]

/-- The unit with the class `A`. -/
def loopUnit (x : Expr) : CompilationUnit where
  span := ⟨1, 26⟩
  name := "A.java"
  package := some ⟨0⟩
  module := none
  classes := [loopClass x]

/-- The surroundings of the sessions over the class. -/
def loopEnv (x : Expr) : Env where
  table := loopTable
  catalog :=
    { entries := [(⟨0⟩, ⟨loopClass x, loopConstructor x, true, true⟩),
        (⟨1⟩, ⟨innerClass, innerConstructor, false, true⟩)]
      nonPublic := [⟨4⟩]
      analyzable := [loopClass x] }

/-- The session over the constructor. -/
def loopSession (x : Expr) : Session := ⟨loopClass x, [some (loopStmt x)]⟩

/-- The operand `this`. -/
def loopThis : Expr := .ident ⟨12, 13⟩ "this" none

/-- The operand `new Inner()`. -/
def loopNew : Expr := .new ⟨12, 13⟩ none (some ⟨4⟩) (some ⟨1⟩) [] none

/-- An expression in parentheses. -/
def inParens (x : Expr) : Expr := .paren x.span (some x)

theorem loopUnit_withParens {x x' : Expr} (h : Node.WithParens (.expr x) (.expr x'))
    (hnew : x.isNew = x'.isNew) :
    Node.WithParens (.file (loopUnit x)) (.file (loopUnit x')) := by
  have hstmt : Node.WithParens (.stmt (loopStmt x)) (.stmt (loopStmt x')) :=
    .same (.forEach (.some (.refl _)) (.some h) hnew (.some (.refl _)))
  have hctor : Node.WithParens (.method (loopConstructor x)) (.method (loopConstructor x')) :=
    .same (.method .nil (.some (.same (.block (.cons (.some hstmt) .nil)))))
  exact .same (.file (.cons (.same (.classDecl (.cons hctor (.cons (.refl _) .nil)))) .nil))

/-- The session over the loop `for (Object v : this) ;` finds the leak at the call of `iterator()`,
and so it does in the unit with the operand `(this)`. -/
theorem sessions_withParens_loopThis :
    Node.WithParens (.file (loopUnit loopThis)) (.file (loopUnit (inParens loopThis))) ∧
    Catalog.build loopTable (loopUnit loopThis) { enabled := true } =
      .ok (loopEnv loopThis).catalog ∧
    sessions (loopEnv loopThis) {} = [loopSession loopThis] ∧
    ((loopSession loopThis).outcome (loopEnv loopThis) 20).trails = [[12]] ∧
    ∃ cat s n,
      Catalog.build loopTable (loopUnit (inParens loopThis)) { enabled := true } = .ok cat ∧
      sessions { table := loopTable, catalog := cat } {} = [s] ∧
      (s.outcome { table := loopTable, catalog := cat } n).trails = [[12]] := by
  have hparens :
      Node.WithParens (.file (loopUnit loopThis)) (.file (loopUnit (inParens loopThis))) :=
    loopUnit_withParens (.paren (.refl _)) rfl
  have hbuild : Catalog.build loopTable (loopUnit loopThis) { enabled := true } =
      .ok (loopEnv loopThis).catalog := by cbv
  have hsessions : sessions (loopEnv loopThis) {} = [loopSession loopThis] := rfl
  have htrails : ((loopSession loopThis).outcome (loopEnv loopThis) 20).trails = [[12]] := by
    decide +kernel
  have hstop : ((loopSession loopThis).outcome (loopEnv loopThis) 20).stop = none := by
    decide +kernel
  refine ⟨hparens, hbuild, hsessions, htrails, ?_⟩
  have h := sessions_withParens loopTable {} hparens
  rw [show Catalog.build loopTable (loopUnit loopThis) { enabled := ({} : Config).enabled } = _
    from hbuild] at h
  generalize Catalog.build loopTable (loopUnit (inParens loopThis)) _ = r at h ⊢
  cases h with
  | @ok _ cat h =>
    obtain ⟨-, hsame, hall⟩ := h
    change List.Forall₂ Session.WithParens (sessions (loopEnv loopThis) {}) _ at hall
    rw [hsessions] at hall
    generalize hss : sessions { table := loopTable, catalog := cat } {} = ss at hall
    cases hall with
    | @cons _ s _ _ hs hnil =>
      cases hnil
      have hne : ((loopSession loopThis).outcome (loopEnv loopThis) 20).stop ≠ some .exhausted := by
        rw [hstop]
        rintro ⟨⟩
      obtain ⟨n, hn⟩ := ((hsame _ _ hs).outcome _ hne).mp ⟨20, rfl⟩
      exact ⟨cat, s, n, rfl, hss, by rw [hn, htrails]⟩

/-- The operand `new Inner()` is the place of the call of `iterator()` that the loop makes, and the
call is taken to create an instance, which keeps its receiver alive up to the call of `hasNext()`.
With parentheses around the operand no leak is found. -/
theorem parens_hide_leak :
    (Catalog.build loopTable (loopUnit loopNew) { enabled := true } =
        .ok (loopEnv loopNew).catalog ∧
      sessions (loopEnv loopNew) {} = [loopSession loopNew] ∧
      (loopSession loopNew).outcome (loopEnv loopNew) 20 =
        { trails := [[12]], log := [.possibleEscape "p.A" 1] }) ∧
    Catalog.build loopTable (loopUnit (inParens loopNew)) { enabled := true } =
      .ok (loopEnv (inParens loopNew)).catalog ∧
    sessions (loopEnv (inParens loopNew)) {} = [loopSession (inParens loopNew)] ∧
    (loopSession (inParens loopNew)).outcome (loopEnv (inParens loopNew)) 20 = {} := by
  exact ⟨⟨by cbv, rfl, by decide +kernel⟩, by cbv, rfl, by decide +kernel⟩

end Analysis

end EarlyEscape
