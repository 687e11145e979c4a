import EarlyEscape.Proofs.Analysis.Suppression
import EarlyEscape.Proofs.Trail

/-!
# The report is all or nothing

The analysis of a unit runs its sessions one after the other, and the trails of all of them are kept
until the end.  If every session comes to its end, each trail that remains is reported as one leak.
The first session with an error of the analysis decides the report instead: it is this error alone,
whatever leaks were found before.

## Main definitions

* `Analysis.Session` : a class and the statements that one session interprets.
* `Analysis.sessions` : the sessions of a unit in the order in which they take place.
* `Diagnostic.Tells` : a diagnostic reports a trail.

## Main results

* `Analysis.Outcome.all_cases` : sessions one after the other all end well, or the first that does
  not decides.
* `Analysis.run_all_or_nothing` : so it is for the analysis of a unit.
-/

namespace EarlyEscape

/-! ### One diagnostic for each trail -/

/-- The diagnostic reports the trail: it stands at the leak and mentions the calls in order. -/
structure Diagnostic.Tells (diag : Diagnostic) (trail : Trail) : Prop where
  positions : diag.pos :: diag.related.map (·.pos) = trail
  category : diag.category = EarlyEscape.category
  message : diag.message = Diagnostic.leakMessage
  via : ∀ place ∈ diag.related, place.message = Diagnostic.viaMessage

theorem Diagnostic.tells_leak (pos : Pos) (via : List Pos) : (leak pos via).Tells (pos :: via) where
  positions := by simp [leak, Function.comp_def]
  category := rfl
  message := rfl
  via := by simp [leak]

/-- Each of the collapsed trails is reported by one diagnostic, in order. -/
theorem Diagnostic.forall₂_ofTrails (ts : List Trail) :
    List.Forall₂ Tells (ofTrails ts) (Trail.collapse ts) := by
  have hne : ∀ trail ∈ Trail.collapse ts, trail ≠ [] := fun _ h => (Trail.mem_of_mem_keepFrom h).2
  unfold ofTrails
  generalize Trail.collapse ts = kept at hne
  induction kept with
  | nil => exact .nil
  | cons trail kept ih =>
    obtain ⟨pos, via, rfl⟩ := List.exists_cons_of_ne_nil (hne trail List.mem_cons_self)
    exact .cons (tells_leak pos via) (ih fun t ht => hne t (List.mem_cons_of_mem _ ht))

namespace Analysis

open Interp

/-! ### Outcomes one after the other -/

namespace Outcome

@[simp] theorem empty_andThen (o : Outcome) : andThen {} o = o := by
  simp [andThen]

@[simp] theorem andThen_empty (o : Outcome) : o.andThen {} = o := by
  unfold andThen
  split
  · rfl
  · next h => simp [← h]

theorem andThen_of_stop {a : Outcome} {e : Stop} (h : a.stop = some e) (b : Outcome) :
    a.andThen b = a := by
  simp [andThen, h]

theorem andThen_of_quiet {a : Outcome} (h : a.stop = none) (b : Outcome) :
    a.andThen b = ⟨a.trails ++ b.trails, a.log ++ b.log, b.stop⟩ := by
  simp [andThen, h]

theorem andThen_assoc (a b c : Outcome) :
    (a.andThen b).andThen c = a.andThen (b.andThen c) := by
  cases ha : a.stop with
  | some e => rw [andThen_of_stop ha, andThen_of_stop ha, andThen_of_stop ha]
  | none =>
    rw [andThen_of_quiet ha, andThen_of_quiet ha]
    cases hb : b.stop with
    | some e => simp [andThen, hb]
    | none => simp [andThen, hb]

theorem foldl_andThen (a : Outcome) (os : List Outcome) :
    os.foldl andThen a = a.andThen (all os) := by
  induction os generalizing a with
  | nil => simp [all]
  | cons o os ih => rw [all, List.foldl_cons, List.foldl_cons, ih, ih, andThen_assoc, empty_andThen]

theorem all_cons (o : Outcome) (os : List Outcome) : all (o :: os) = o.andThen (all os) := by
  rw [all, List.foldl_cons, empty_andThen, foldl_andThen]

theorem all_append (os os' : List Outcome) : all (os ++ os') = (all os).andThen (all os') := by
  rw [all, List.foldl_append, foldl_andThen]
  rfl

/-- Sessions one after the other all end well and have the trails of each, or the first one that
does not decides how they end. -/
theorem all_cases (os : List Outcome) :
    ((∀ o ∈ os, o.stop = none) ∧ (all os).stop = none ∧ (all os).trails = os.flatMap (·.trails)) ∨
    ∃ before o after e, os = before ++ o :: after ∧ (∀ o ∈ before, o.stop = none) ∧
      o.stop = some e ∧ (all os).stop = some e := by
  induction os with
  | nil => exact .inl ⟨nofun, rfl, rfl⟩
  | cons o os ih =>
    rw [all_cons]
    cases ho : o.stop with
    | some e =>
      refine .inr ⟨[], o, os, e, rfl, nofun, ho, ?_⟩
      rw [andThen_of_stop ho, ho]
    | none =>
      rw [andThen_of_quiet ho]
      rcases ih with ⟨hquiet, hstop, htrails⟩ | ⟨before, o', after, e, rfl, hbefore, ho', hstop⟩
      · refine .inl ⟨List.forall_mem_cons.mpr ⟨ho, hquiet⟩, hstop, ?_⟩
        rw [List.flatMap_cons, htrails]
      · exact .inr ⟨o :: before, o', after, e, rfl, List.forall_mem_cons.mpr ⟨ho, hbefore⟩, ho',
          hstop⟩

end Outcome

/-! ### The sessions of a unit -/

/-- A session: the class under construction, and the statements that are interpreted. -/
structure Session where
  cls : ClassDecl
  stmts : List (Option Stmt)

/-- What the session contributes. -/
def Session.outcomeBy (t : SymbolTable) (walk : Walk) (s : Session) : Outcome :=
  sessionBy t walk s.cls.sym s.stmts

/-- What the session contributes, with a bound on its steps. -/
def Session.outcome (env : Env) (fuel : Nat) (s : Session) : Outcome :=
  s.outcomeBy env.table (exec env fuel)

/-- The sessions of a class: those over its initializers, if the configuration asks for them, and
those over the constructors with a body that the analysis starts from. -/
def classSessions (env : Env) (config : Config) (d : ClassDecl) : List Session :=
  ((if config.initializers then (d.initializers env.table).filterMap (initializerStmts env)
    else []) ++ (analyzableConstructors env d).filterMap fun m => m.body.map (·.stmts)).map (⟨d, ·⟩)

/-- The sessions of all classes from which the analysis starts. -/
def sessions (env : Env) (config : Config) : List Session :=
  env.catalog.analyzable.flatMap (classSessions env config)

/-- A constructor without a body has no session. -/
theorem all_constructors (env : Env) (walk : Walk) (d : ClassDecl) (ctors : List MethodDecl) :
    Outcome.all (ctors.map (constructorBy env walk d)) =
      .all ((ctors.filterMap fun m => m.body.map (·.stmts)).map
        (sessionBy env.table walk d.sym)) := by
  induction ctors with
  | nil => rfl
  | cons ctor ctors ih =>
    rw [List.map_cons, Outcome.all_cons, ih]
    cases hbody : ctor.body with
    | none => simp [constructorBy, hbody]
    | some b => simp [constructorBy, hbody, Outcome.all_cons]

/-- A class with a name is analysed by its sessions, one after the other. -/
theorem analyzeClassBy_eq {env : Env} {d : ClassDecl} {name : String}
    (h : env.table.classText? d.sym = some name) (walk : Walk) (config : Config) :
    analyzeClassBy env walk config d =
      (Outcome.all ((classSessions env config d).map (·.outcomeBy env.table walk))).andThen
        { log := [.analyzedClass name (analyzableConstructors env d).length] } := by
  have hmap : (classSessions env config d).map (·.outcomeBy env.table walk) =
      ((if config.initializers then (d.initializers env.table).filterMap (initializerStmts env)
        else []) ++ (analyzableConstructors env d).filterMap fun m => m.body.map (·.stmts)).map
          (sessionBy env.table walk d.sym) := by
    rw [classSessions, List.map_map]
    rfl
  rw [hmap, List.map_append, Outcome.all_append, ← all_constructors, analyzeClassBy, h]
  dsimp only
  split <;> rfl

/-- The outcome of a class is told by the outcomes of its sessions. -/
theorem analyzeClassBy_congr {env : Env} {walk walk' : Walk} {config : Config} {d : ClassDecl}
    (h : ∀ s ∈ classSessions env config d,
      s.outcomeBy env.table walk = s.outcomeBy env.table walk') :
    analyzeClassBy env walk config d = analyzeClassBy env walk' config d := by
  cases hname : env.table.classText? d.sym with
  | none => simp [analyzeClassBy, hname]
  | some name => rw [analyzeClassBy_eq hname, analyzeClassBy_eq hname, List.map_congr_left h]

/-- A class is analysed without an error if all its sessions end well; it is the first other one
that ends the analysis of the class, if that has a name. -/
theorem analyzeClassBy_cases (env : Env) (walk : Walk) (config : Config) (d : ClassDecl) :
    ((analyzeClassBy env walk config d).stop = none ∧
      (∀ s ∈ classSessions env config d, (s.outcomeBy env.table walk).stop = none) ∧
      (analyzeClassBy env walk config d).trails =
        (classSessions env config d).flatMap fun s => (s.outcomeBy env.table walk).trails) ∨
    (∃ before s after e, classSessions env config d = before ++ s :: after ∧
      (∀ s ∈ before, (s.outcomeBy env.table walk).stop = none) ∧
      (s.outcomeBy env.table walk).stop = some e ∧
      (analyzeClassBy env walk config d).stop = some e) ∨
    (analyzeClassBy env walk config d).stop = some .missing := by
  cases hname : env.table.classText? d.sym with
  | none => exact .inr (.inr (by simp [analyzeClassBy, hname]))
  | some name =>
    rw [analyzeClassBy_eq hname]
    rcases Outcome.all_cases ((classSessions env config d).map (·.outcomeBy env.table walk)) with
      ⟨hquiet, hstop, htrails⟩ | ⟨before, o, after, e, hos, hbefore, ho, hstop⟩
    · refine .inl ?_
      rw [Outcome.andThen_of_quiet hstop, htrails]
      refine ⟨rfl, fun s hs => hquiet _ (List.mem_map_of_mem hs), ?_⟩
      rw [List.append_nil, List.flatMap_map]
    · obtain ⟨before', rest, hsessions, rfl, hrest⟩ := List.map_eq_append_iff.mp hos
      obtain ⟨s, after', rfl, rfl, rfl⟩ := List.map_eq_cons_iff.mp hrest
      refine .inr (.inl ⟨before', s, after', e, hsessions,
        fun s hs => hbefore _ (List.mem_map_of_mem hs), ho, ?_⟩)
      rw [Outcome.andThen_of_stop hstop, hstop]

/-! ### The report of a unit -/

/-- The report of an error of the analysis in a session is this error alone, at its position or, if
it has none, at the declaration of the class. -/
structure Report.TellsError (r : Report) (t : SymbolTable) (d : ClassDecl) (e : InternalError) :
    Prop where
  failure : r.failure = some (.internal (t.classText d.sym) e)
  diagnostics : r.diagnostics = [.internalError (if e.pos = 0 then d.span else ⟨e.pos, e.pos⟩)
    (e.fault.message ++ " in class " ++ t.classText d.sym)]

/-- The sessions of the classes that are analysed all end well and their trails are reported
together with earlier ones, or the report tells of the error of the first one that does not. -/
theorem runClassesBy_cases {env : Env} {walk : Walk} {config : Config} {file : String} {count : Nat}
    {ds : List ClassDecl} {trails : List Trail} {log : List LogRecord} {r : Report}
    (h : runClassesBy env walk config file count ds trails log = .ok r) :
    ((∀ s ∈ ds.flatMap (classSessions env config), (s.outcomeBy env.table walk).stop = none) ∧
      r.failure = none ∧ r.diagnostics = Diagnostic.ofTrails (trails ++
        (ds.flatMap (classSessions env config)).flatMap fun s =>
          (s.outcomeBy env.table walk).trails)) ∨
    ∃ before s after e, ds.flatMap (classSessions env config) = before ++ s :: after ∧
      (∀ s ∈ before, (s.outcomeBy env.table walk).stop = none) ∧
      (s.outcomeBy env.table walk).stop = some (.internal e) ∧ r.TellsError env.table s.cls e := by
  induction ds generalizing trails log with
  | nil =>
    cases h
    exact .inl ⟨nofun, rfl, by simp [leakReport]⟩
  | cons d ds ih =>
    rw [List.flatMap_cons]
    rcases analyzeClassBy_cases env walk config d with
      ⟨hstop, hquiet, htrails⟩ | ⟨before, s, after, e, hss, hbefore, hs, hstop⟩ | hstop
    all_goals simp only [runClassesBy, hstop] at h
    · rcases ih h with ⟨hrest, hfailure, hdiags⟩ | ⟨before, s, after, e, hss, hbefore, hs, htells⟩
      · refine .inl ⟨List.forall_mem_append.mpr ⟨hquiet, hrest⟩, hfailure, ?_⟩
        rw [hdiags, htrails, List.flatMap_append, List.append_assoc]
      · refine .inr ⟨classSessions env config d ++ before, s, after, e, ?_,
          List.forall_mem_append.mpr ⟨hquiet, hbefore⟩, hs, htells⟩
        rw [hss, List.append_assoc]
    · cases e with
      | internal e =>
        cases h
        have hcls : s.cls = d := by
          have hmem : s ∈ classSessions env config d := by simp [hss]
          obtain ⟨stmts, -, rfl⟩ := List.mem_map.mp hmem
          rfl
        refine .inr ⟨before, s, after ++ ds.flatMap (classSessions env config), e, ?_, hbefore, hs,
          ?_⟩
        · rw [hss, List.append_assoc, List.cons_append]
        · rw [hcls]
          exact ⟨rfl, rfl⟩
      | missing | exhausted => cases h
    · cases h

/-- A report on a unit tells the same, with a log or without. -/
theorem exists_runUnitBy {t : SymbolTable} {walk : Env → Walk} {config : Config}
    {u : CompilationUnit} {r : Report} (h : runBy t walk config (some u) true = .ok r) :
    ∃ r', runUnitBy t walk config u = .ok r' ∧ r.failure = r'.failure ∧
      r.diagnostics = r'.diagnostics := by
  simp only [runBy, if_true] at h
  cases hunit : runUnitBy t walk config u with
  | error e => simp [hunit, Except.map] at h
  | ok r' =>
    refine ⟨r', rfl, ?_⟩
    simp only [hunit, Except.map, Except.ok.injEq] at h
    subst h
    split <;> exact ⟨rfl, rfl⟩

/-- The analysis of a unit is all or nothing.  Either all its sessions end well, there is no
failure, and each trail that remains when those of all sessions are collapsed is reported by one
diagnostic, in this order.  Or the first session with an error of the analysis decides: the failure
is its error, and this is all that is reported. -/
theorem run_all_or_nothing (t : SymbolTable) (ties : TieOrder) (fuel : Nat) (config : Config)
    (u : CompilationUnit) (r : Report) (h : run t ties fuel config (some u) true = .ok r) :
    ∃ cat, Catalog.build t u { enabled := config.enabled } = .ok cat ∧
      let env : Env := { table := t, catalog := cat, checked := config.invariants, ties }
      ((∀ s ∈ sessions env config, (s.outcome env fuel).stop = none) ∧ r.failure = none ∧
        List.Forall₂ Diagnostic.Tells r.diagnostics (Trail.collapse
          ((sessions env config).flatMap fun s => (s.outcome env fuel).trails))) ∨
      ∃ before s after e, sessions env config = before ++ s :: after ∧
        (∀ s ∈ before, (s.outcome env fuel).stop = none) ∧
        (s.outcome env fuel).stop = some (.internal e) ∧ r.TellsError t s.cls e := by
  obtain ⟨r', hunit, hr⟩ := exists_runUnitBy h
  unfold runUnitBy at hunit
  split at hunit
  · cases hunit
  · cases hunit
  · next cat hcat =>
    refine ⟨cat, hcat, ?_⟩
    rcases runClassesBy_cases hunit with
      ⟨hquiet, hfailure, hdiags⟩ | ⟨before, s, after, e, hss, hbefore, hs, htells⟩
    · refine .inl ⟨hquiet, hr.1.trans hfailure, ?_⟩
      rw [hr.2, hdiags, List.nil_append]
      exact Diagnostic.forall₂_ofTrails _
    · exact .inr ⟨before, s, after, e, hss, hbefore, hs, hr.1.trans htells.failure,
        hr.2.trans htells.diagnostics⟩

/-! ### A leak that is not reported -/

/-- The symbols of `fieldTable`, and a constructor of `R`. -/
def brokenTable : SymbolTable where
  packages := fieldTable.packages
  classes := fieldTable.classes
  methods := fieldTable.methods ++
    #[{ name := "<init>", owner := some ⟨2⟩, flags := .of [.publicAccess], isConstructor := true }]
  vars := fieldTable.vars

/-- The constructor `public R() { this.new Object() { { ... } }; }` with a statement of an unknown
sort at the position 76. -/
def brokenConstructor : MethodDecl where
  id := ⟨4⟩
  span := ⟨70, 80⟩
  sym := some ⟨3⟩
  annotations := []
  params := []
  body := some ⟨⟨71, 79⟩, false, [some (.exprStmt ⟨72, 78⟩ (some (.new ⟨72, 78⟩
    (some (.ident ⟨72, 73⟩ "this" none)) (some ⟨0⟩) none []
    (some ⟨⟨5⟩, ⟨74, 78⟩, none, [],
      [.initializer ⟨⟨75, 77⟩, false, [some (.unknown ⟨76, 77⟩ "goto")]⟩]⟩))))]⟩

/-- The class `R` with this constructor. -/
def brokenClass : ClassDecl where
  id := ⟨3⟩
  span := ⟨61, 90⟩
  sym := some ⟨2⟩
  annotations := []
  members := [.method brokenConstructor]

/-- The unit with the classes `A`, which leaks, and `R`. -/
def brokenUnit : CompilationUnit where
  span := ⟨1, 90⟩
  name := "A.java"
  package := some ⟨0⟩
  module := none
  classes := [fieldClass, brokenClass]

/-- The catalog of the unit. -/
def brokenCatalog : Catalog where
  entries := fieldEnv.catalog.entries ++ [(⟨3⟩, ⟨brokenClass, brokenConstructor, true, true⟩)]
  suppressed := [.var ⟨0⟩]
  analyzable := [fieldClass, brokenClass]

theorem visit_fieldClass : Catalog.Builder.visit brokenTable none ⟨false, { enabled := true }⟩
    (.ofClassDecl fieldClass) {} = .ok ⟨fieldEnv.catalog, [⟨0⟩]⟩ :=
  (Catalog.Builder.visit_newClass ⟨false, { enabled := true }⟩ fieldEnv.catalog List.not_mem_nil rfl
    (by decide +kernel) rfl rfl).trans (visit_fieldMembers ..)

theorem build_brokenUnit :
    Catalog.build brokenTable brokenUnit { enabled := true } = .ok brokenCatalog := by
  have hsecond : Catalog.Builder.visit brokenTable none ⟨false, { enabled := true }⟩
      (.ofClassDecl brokenClass) ⟨fieldEnv.catalog, [⟨0⟩]⟩ =
        .ok ⟨brokenCatalog, [⟨5⟩, ⟨3⟩, ⟨0⟩]⟩ :=
    (Catalog.Builder.visit_newClass ⟨false, { enabled := true }⟩ brokenCatalog (by decide) rfl
      (by decide +kernel) (by cbv) rfl).trans (by cbv)
  rw [Catalog.build, brokenUnit, List.foldlM_cons, visit_fieldClass]
  exact congrArg (· >>= fun b => .ok b.catalog) ((bind_pure _).trans hsecond)

/-- The surroundings of the sessions over its classes. -/
def brokenEnv : Env := { table := brokenTable, catalog := brokenCatalog }

theorem analyzeClass_fieldClass : analyzeClassBy brokenEnv (exec brokenEnv 20) {} fieldClass =
    { trails := [[22, 32]], log := [.possibleEscape "p.A" 2, .analyzedClass "p.A" 1] } := by
  decide +kernel

theorem analyzeClass_brokenClass : analyzeClassBy brokenEnv (exec brokenEnv 20) {} brokenClass =
    { stop := some (.internal ⟨76, .unknownStmt "goto"⟩) } := by
  decide +kernel

theorem run_brokenUnit : run brokenTable .byIdentity 20 {} (some brokenUnit) true =
    .ok { diagnostics := [.internalError ⟨76, 76⟩ "unexpected node: statement goto in class p.R"]
          failure := some (.internal "p.R" ⟨76, .unknownStmt "goto"⟩) } := by
  have hclasses : runClassesBy brokenEnv (exec brokenEnv 20) {} "A.java" 2 [fieldClass, brokenClass]
      [] [] = .ok (internalReport brokenTable brokenClass ⟨76, .unknownStmt "goto"⟩
        [.possibleEscape "p.A" 2, .analyzedClass "p.A" 1]) := by
    simp only [runClassesBy, analyzeClass_fieldClass, analyzeClass_brokenClass, List.nil_append,
      List.append_nil]
    rfl
  have hunit : runUnitBy brokenTable (fun env => exec { env with ties := .byIdentity } 20) {}
      brokenUnit =
      .ok (internalReport brokenTable brokenClass ⟨76, .unknownStmt "goto"⟩
        [.possibleEscape "p.A" 2, .analyzedClass "p.A" 1]) := by
    unfold runUnitBy
    simp only [build_brokenUnit]
    exact hclasses
  have htext : brokenTable.classText (some ⟨2⟩) = "p.R" := by cbv
  rw [run, runBy, if_pos rfl, hunit]
  simp only [Except.map, internalReport, htext, show brokenClass.sym = some ⟨2⟩ from rfl]
  rfl

/-- The leak in `A` is not reported, because the analysis of `R` fails. -/
theorem run_all_or_nothing_broken :
    ∃ r, run brokenTable .byIdentity 20 {} (some brokenUnit) true = .ok r ∧
      r.diagnostics = [.internalError ⟨76, 76⟩ "unexpected node: statement goto in class p.R"] ∧
      ∃ cat, Catalog.build brokenTable brokenUnit { enabled := true } = .ok cat ∧
        let env : Env := { table := brokenTable, catalog := cat }
        ((∀ s ∈ sessions env {}, (s.outcome env 20).stop = none) ∧ r.failure = none ∧
          List.Forall₂ Diagnostic.Tells r.diagnostics (Trail.collapse
            ((sessions env {}).flatMap fun s => (s.outcome env 20).trails))) ∨
        ∃ before s after e, sessions env {} = before ++ s :: after ∧
          (∀ s ∈ before, (s.outcome env 20).stop = none) ∧
          (s.outcome env 20).stop = some (.internal e) ∧ r.TellsError brokenTable s.cls e :=
  ⟨_, run_brokenUnit, rfl, run_all_or_nothing brokenTable .byIdentity 20 {} brokenUnit _
    run_brokenUnit⟩

end Analysis

end EarlyEscape
