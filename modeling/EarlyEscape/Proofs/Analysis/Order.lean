import EarlyEscape.Proofs.Analysis.Coverage
import EarlyEscape.Proofs.Analysis.Unit
import EarlyEscape.Proofs.Interp.Ties

/-!
# The order of the classes

The classes of a unit are looked up, analysed and reported in an order that comes from their order
in the unit.  The report does not show it.  The catalog gives the same answers, because what it
finds first is all there is to find; the sessions of a class do not depend on those of another; and
the trails of all of them are sorted.

Which of several tied references comes first is nowhere said, and a loop over the elements of a
value takes the first one.  The report can therefore depend on the order of such references, but
what can be reported does not depend on the order of the classes.

## Main definitions

* `CompilationUnit.Consistent` : no declaration occurs twice, and methods belong to the classes that
  declare them.
* `Analysis.MayReport` : what can be reported if the order of tied references changes all the time.
* `Analysis.Covers` : the bounds of a world hold in the sessions over a unit.

## Main results

* `Catalog.Collects.agrees` : the answers of a catalog do not depend on the order of the classes.
* `Analysis.run_perm` : nor does the report of a unit.
-/

namespace EarlyEscape

/-! ### The catalog -/

/-- No class declaration occurs twice, no class and no method is declared twice, and the symbols of
methods say which class declares them. -/
structure CompilationUnit.Consistent (t : SymbolTable) (u : CompilationUnit) : Prop where
  once : ((Node.file u).classes.map (·.id)).Nodup
  classes : ((Node.file u).classes.filterMap (·.sym)).Nodup
  methods : (Catalog.methodSyms (.file u)).Nodup
  owner : ∀ d ∈ (Node.file u).classes, ∀ c, d.sym = some c → ∀ md ∈ d.methods, ∀ m,
    md.sym = some m → (t.method m).owner = some c

namespace Catalog

variable {t : SymbolTable} {module : Option ModuleId} {rs rs' : List Recorded} {cat cat' : Catalog}

theorem lookup?_eq_of_perm (h : cat.entries.Perm cat'.entries)
    (hkeys : (cat.entries.map (·.1)).Nodup) (m : Option MethodId) :
    cat.lookup? m = cat'.lookup? m := by
  cases m with
  | none => rfl
  | some m =>
    ext e
    rw [lookup?_eq_some_iff_mem hkeys, lookup?_eq_some_iff_mem ((h.map _).nodup hkeys), h.mem_iff]

/-- The methods of a class come from the one declaration of the class that is recorded. -/
theorem Collects.candidates_eq (h : Collects t module rs cat)
    (howner : ∀ r ∈ rs, ∀ x ∈ r.entries t module, (t.method x.1).owner = some r.cls)
    (m : MethodId) (c : ClassId) :
    cat.candidates t m c = (rs.filter (·.cls == c)).flatMap fun r =>
      (r.entries t module).filter fun x => (t.method x.1).name == (t.method m).name := by
  rw [candidates, h.entries]
  clear h
  induction rs with
  | nil => rfl
  | cons r rs ih =>
    have ih := ih fun r hr => howner r (List.mem_cons_of_mem _ hr)
    have hown := howner r List.mem_cons_self
    rw [List.flatMap_cons, List.filter_append, ih]
    by_cases hc : r.cls = c
    · rw [List.filter_cons_of_pos (by simpa using hc), List.flatMap_cons]
      refine congrArg (· ++ _) (List.filter_congr fun x hx => ?_)
      simp [hown x hx, hc]
    · rw [List.filter_cons_of_neg (by simpa using hc)]
      refine (congrArg (· ++ _) (List.filter_eq_nil_iff.mpr fun x hx => ?_)).trans
        (List.nil_append _)
      simp [hown x hx, hc]

/-- At most one of the classes has a given symbol, so that there is no order among those that have
it. -/
theorem filter_cls_eq_of_perm (hperm : rs.Perm rs') (hcls : (rs.map (·.cls)).Nodup) (c : ClassId) :
    rs.filter (·.cls == c) = rs'.filter (·.cls == c) := by
  have hmem (l : List Recorded) : ∀ r ∈ l.filter (·.cls == c), r.cls = c := fun r hr => by
    simpa using (List.mem_filter.mp hr).2
  have hpairwise {l : List Recorded} (hl : (l.map (·.cls)).Nodup) :
      (l.filter (·.cls == c)).Pairwise fun r r' => r.cls ≠ r'.cls :=
    (List.pairwise_map.mp hl).filter _
  refine List.Perm.eq_of_pairwise (fun r r' hr hr' hne _ => ?_) (hpairwise hcls)
    (hpairwise ((hperm.map _).nodup hcls)) (hperm.filter _)
  exact absurd ((hmem rs r hr).trans (hmem rs' r' hr').symm) hne

/-- The answers of a catalog do not depend on the order of the classes, if these have different
symbols and so have their methods, which belong to them. -/
theorem Collects.agrees (h : Collects t module rs cat) (h' : Collects t module rs' cat')
    (hperm : rs.Perm rs') (hkeys : (cat.entries.map (·.1)).Nodup)
    (hcls : (rs.map (·.cls)).Nodup)
    (howner : ∀ r ∈ rs, ∀ x ∈ r.entries t module, (t.method x.1).owner = some r.cls) :
    cat.Agrees t cat' where
  lookup := by
    refine lookup?_eq_of_perm ?_ hkeys
    rw [h.entries, h'.entries]
    exact hperm.flatMap_right _
  overrider m c := by
    cases m with
    | none => rfl
    | some m =>
      cases c with
      | none => rfl
      | some c =>
        have howner' := fun r hr => howner r (hperm.mem_iff.mpr hr)
        rw [overrider?, overrider?, h.candidates_eq howner, h'.candidates_eq howner',
          filter_cls_eq_of_perm hperm hcls]
  nonPublic c := by
    have hmem (c : ClassId) : c ∈ cat.nonPublic ↔ c ∈ cat'.nonPublic := by
      simp only [h.nonPublic, h'.nonPublic, hperm.mem_iff]
    cases c with
    | none => rfl
    | some c => simp [isNonPublic, hmem]
  suppressed s := by
    have hmem : s ∈ cat.suppressed ↔ s ∈ cat'.suppressed := by
      simp only [h.suppressed, h'.suppressed, hperm.mem_iff]
    simp [isSuppressed, hmem]

end Catalog

/-! ### Units with the same classes -/

section Perm

variable {t : SymbolTable} {u : CompilationUnit} {cs : List ClassDecl}

theorem Node.classes_file_perm (h : u.classes.Perm cs) :
    (file u).classes.Perm (file { u with classes := cs }).classes := by
  rw [classes_eq, classes_eq (file { u with classes := cs })]
  exact (h.map _).flatMap_right _

theorem CompilationUnit.Consistent.perm (hu : u.Consistent t) (h : u.classes.Perm cs) :
    CompilationUnit.Consistent t { u with classes := cs } := by
  have hperm := Node.classes_file_perm h
  exact ⟨(hperm.map _).nodup hu.once, (hperm.filterMap _).nodup hu.classes,
    (hperm.flatMap_right _).nodup hu.methods, fun d hd => hu.owner d (hperm.mem_iff.mpr hd)⟩

namespace Catalog

theorem recorded_perm (h : u.classes.Perm cs) (lint : Lint) :
    (recorded t u lint).Perm (recorded t { u with classes := cs } lint) := by
  rw [recorded, recorded, findings_file, findings_file]
  exact (h.flatMap_right _).filterMap _

/-- Whether a unit has a catalog does not depend on the order of its classes. -/
theorem exists_build_of_perm (hu : u.Consistent t) (h : u.classes.Perm cs) {lint : Lint}
    {cat : Catalog} (hcat : build t u lint = .ok cat) :
    ∃ cat', build t { u with classes := cs } lint = .ok cat' := by
  rw [build_eq_of_nodup hu.once] at hcat
  rw [build_eq_of_nodup (hu.perm h).once]
  have hperm : (findings [] (.file u)).Perm (findings [] (.file { u with classes := cs })) := by
    rw [findings_file, findings_file]
    exact h.flatMap_right _
  split at hcat
  · cases hcat
  · next hnone =>
    have hnone' : (findings [] (.file { u with classes := cs })).findSome? (Finding.fault? t) =
        none :=
      List.findSome?_eq_none_iff.mpr fun f hf =>
        List.findSome?_eq_none_iff.mp hnone f (hperm.mem_iff.mpr hf)
    rw [hnone']
    exact ⟨_, rfl⟩

/-- The catalogs of units with the same classes give the same answers, and the analysis starts from
the same classes. -/
theorem agrees_of_perm (hu : u.Consistent t) (h : u.classes.Perm cs) {lint : Lint}
    {cat cat' : Catalog} (hcat : build t u lint = .ok cat)
    (hcat' : build t { u with classes := cs } lint = .ok cat') :
    cat.Agrees t cat' ∧ cat.analyzable.Perm cat'.analyzable := by
  have hcollects := collects_of_build hu.once hu.methods hcat
  have hcollects' := collects_of_build (hu.perm h).once (hu.perm h).methods hcat'
  have hperm := recorded_perm (t := t) h lint
  refine ⟨hcollects.agrees hcollects' hperm ?_ ?_ ?_, ?_⟩
  · rw [hcollects.entries]
    exact nodup_keys_recorded hu.methods
  · have hsub := (decls_recorded_sublist t u lint).filterMap (·.sym)
    have hcls : ((recorded t u lint).map (·.decl)).filterMap (·.sym) =
        (recorded t u lint).map (·.cls) := by
      rw [List.filterMap_map]
      refine List.filterMap_eq_map_iff_forall_eq_some.mpr fun r hr => ?_
      obtain ⟨a, -, hsym, -⟩ := mem_recorded_iff.mp hr
      exact hsym
    exact hcls ▸ hsub.nodup hu.classes
  · rintro r hr ⟨m, e⟩ hx
    obtain ⟨md, hmd, hm, -⟩ := mem_entries_iff.mp hx
    obtain ⟨a, -, hsym, -⟩ := mem_recorded_iff.mp hr
    exact hu.owner r.decl (mem_classes_of_mem_recorded hr) r.cls hsym md hmd m hm
  · rw [hcollects.analyzable, hcollects'.analyzable]
    exact (hperm.filter _).map _

end Catalog

end Perm

/-! ### The report -/

namespace Analysis

open Interp

/-- The sessions of a class depend on the answers of the catalog alone. -/
theorem analyzeClassBy_eq_of_agrees {env : Env} {cat : Catalog}
    (h : env.catalog.Agrees env.table cat) (walk : Walk) (config : Config) :
    analyzeClassBy env walk config = analyzeClassBy { env with catalog := cat } walk config := by
  funext d
  have hinit : initializerStmts env = initializerStmts { env with catalog := cat } := by
    funext x
    cases x <;> simp only [initializerStmts, h.suppressed]
  have hctors :
      analyzableConstructors env = analyzableConstructors { env with catalog := cat } := by
    funext d
    simp only [analyzableConstructors, h.lookup]
  simp only [analyzeClassBy, initializersBy, hinit, hctors]
  rfl

/-- Classes are analysed without failure exactly when each of them is, and all their trails are
reported. -/
theorem runClassesBy_succeeds_iff {env : Env} {walk : Walk} {config : Config} {file : String}
    {count : Nat} {ds : List ClassDecl} {trails : List Trail} {log : List LogRecord}
    {diags : List Diagnostic} :
    (∃ r, runClassesBy env walk config file count ds trails log = .ok r ∧ r.failure = none ∧
      r.diagnostics = diags) ↔
    (∀ d ∈ ds, (analyzeClassBy env walk config d).stop = none) ∧ Diagnostic.ofTrails
      (trails ++ ds.flatMap fun d => (analyzeClassBy env walk config d).trails) = diags := by
  induction ds generalizing trails log with
  | nil => simp [runClassesBy, leakReport]
  | cons d ds ih =>
    rw [List.forall_mem_cons, List.flatMap_cons, ← List.append_assoc]
    cases hstop : (analyzeClassBy env walk config d).stop with
    | none =>
      simp only [runClassesBy, hstop, ih, true_and]
    | some e =>
      cases e <;> simp [runClassesBy, hstop, internalReport]

section Succeeds

variable {t : SymbolTable} {config : Config} {u : CompilationUnit} {cs : List ClassDecl}
  {diags : List Diagnostic}

/-- The analysis of the unit succeeds and reports the diagnostics. -/
def Succeeds (t : SymbolTable) (walk : Env → Walk) (config : Config) (u : CompilationUnit)
    (reporter : Bool) (diags : List Diagnostic) : Prop :=
  ∃ r, runBy t walk config (some u) reporter = .ok r ∧ r.failure = none ∧ r.diagnostics = diags

/-- The analysis of a unit succeeds with the given diagnostics exactly when it has a catalog, all
classes from which the analysis starts are analysed without failure, and their trails are reported
so. -/
theorem succeeds_iff {walk : Env → Walk} :
    Succeeds t walk config u true diags ↔
    ∃ cat, Catalog.build t u { enabled := config.enabled } = .ok cat ∧
      let env : Env := { table := t, catalog := cat, checked := config.invariants }
      (∀ d ∈ cat.analyzable, (analyzeClassBy env (walk env) config d).stop = none) ∧
      Diagnostic.ofTrails
        (cat.analyzable.flatMap fun d => (analyzeClassBy env (walk env) config d).trails) =
          diags := by
  have hunit : Succeeds t walk config u true diags ↔
      ∃ r, runUnitBy t walk config u = .ok r ∧ r.failure = none ∧ r.diagnostics = diags := by
    rw [Succeeds, runBy, if_pos rfl]
    cases runUnitBy t walk config u with
    | error e => simp [Except.map]
    | ok r => cases config.logging <;> simp [Except.map]
  rw [hunit, runUnitBy]
  cases Catalog.build t u { enabled := config.enabled } with
  | error e => cases e <;> simp
  | ok cat =>
    simp only [runClassesBy_succeeds_iff, List.nil_append, Except.ok.injEq, exists_eq_left']

/-- An analysis that succeeds on a unit succeeds on one with the same classes in another order, with
the same diagnostics, if the interpreter is the same. -/
theorem Succeeds.perm {walk walk' : Env → Walk} (hu : u.Consistent t) (h : u.classes.Perm cs)
    (hwalk : ∀ cat cat', Catalog.build t u { enabled := config.enabled } = .ok cat →
      Catalog.build t { u with classes := cs } { enabled := config.enabled } = .ok cat' →
      walk { table := t, catalog := cat, checked := config.invariants } =
        walk' { table := t, catalog := cat', checked := config.invariants })
    (hrun : Succeeds t walk config u true diags) :
    Succeeds t walk' config { u with classes := cs } true diags := by
  rw [succeeds_iff] at hrun ⊢
  obtain ⟨cat, hcat, hstop, hdiags⟩ := hrun
  obtain ⟨cat', hcat'⟩ := Catalog.exists_build_of_perm hu h hcat
  obtain ⟨hagrees, hperm⟩ := Catalog.agrees_of_perm hu h hcat hcat'
  let env : Env := { table := t, catalog := cat, checked := config.invariants }
  let env' : Env := { table := t, catalog := cat', checked := config.invariants }
  have hclass :
      analyzeClassBy env (walk env) config = analyzeClassBy env' (walk' env') config := by
    rw [show walk env = walk' env' from hwalk cat cat' hcat hcat']
    exact analyzeClassBy_eq_of_agrees hagrees (walk' env') config
  refine ⟨cat', hcat', ?_⟩
  change (∀ d ∈ cat'.analyzable, (analyzeClassBy env' (walk' env') config d).stop = none) ∧
    Diagnostic.ofTrails (cat'.analyzable.flatMap fun d =>
      (analyzeClassBy env' (walk' env') config d).trails) = diags
  rw [← hclass, ← hdiags, Diagnostic.ofTrails, Diagnostic.ofTrails,
    Trail.collapse_eq_of_mem_iff fun _ => (hperm.symm.flatMap_right _).mem_iff]
  exact ⟨fun d hd => hstop d (hperm.mem_iff.mpr hd), rfl⟩

theorem succeeds_of_perm (hu : u.Consistent t) (h : u.classes.Perm cs) (ties : TieOrder)
    (fuel : Nat) (hrun : Succeeds t (fun env => exec { env with ties } fuel) config u true diags) :
    Succeeds t (fun env => exec { env with ties } fuel) config { u with classes := cs } true
      diags := by
  refine hrun.perm hu h fun cat cat' hcat hcat' => ?_
  let env : Env := { table := t, catalog := cat, checked := config.invariants, ties }
  change exec env fuel = exec { env with catalog := cat' } fuel
  exact exec_eq_of_agrees (Catalog.agrees_of_perm hu h hcat hcat').1
    (fun m e he => ((Catalog.describes_of_build hcat).entry m e he).declared) fuel

/-! ### Changing orders of tied references -/

/-- The analysis of the unit can succeed and report the diagnostics, if tied references may come in
another order every time they are listed. -/
def MayReport (t : SymbolTable) (config : Config) (u : CompilationUnit) (reporter : Bool)
    (diags : List Diagnostic) : Prop :=
  ∃ fuel walk, (∀ env, Varies env fuel (walk env)) ∧ Succeeds t walk config u reporter diags

/-- What can be reported with a fixed order can be reported. -/
theorem mayReport_of_run (ties : TieOrder) (fuel : Nat) {reporter : Bool}
    (h : Succeeds t (fun env => exec { env with ties } fuel) config u reporter diags) :
    MayReport t config u reporter diags :=
  ⟨fuel, _, fun env => varies_exec env ties fuel, h⟩

open Classical in
theorem MayReport.perm (hu : u.Consistent t) (h : u.classes.Perm cs)
    (hreport : MayReport t config u true diags) :
    MayReport t config { u with classes := cs } true diags := by
  obtain ⟨fuel, walk, hwalk, hrun⟩ := hreport
  obtain ⟨cat, hcat, -⟩ := succeeds_iff.mp hrun
  obtain ⟨cat', hcat'⟩ := Catalog.exists_build_of_perm hu h hcat
  let env : Env := { table := t, catalog := cat, checked := config.invariants }
  have hvaries : Varies { env with catalog := cat' } fuel (walk env) :=
    (hwalk env).agrees (Catalog.agrees_of_perm hu h hcat hcat').1
      fun m e he => ((Catalog.describes_of_build hcat).entry m e he).declared
  -- with the other catalog the orders are picked as with the first one
  refine ⟨fuel, fun e => if e = { env with catalog := cat' } then walk env else walk e,
    fun e => ?_, hrun.perm hu h fun c c' hc hc' => ?_⟩
  · dsimp only
    split
    · next he => exact he ▸ hvaries
    · exact hwalk e
  · cases hcat.symm.trans hc
    cases hcat'.symm.trans hc'
    exact (if_pos rfl).symm

end Succeeds

/-! ### Units without tied references -/

/-- The bounds of the world hold in all sessions over the unit. -/
structure Covers (w : World) (config : Config) (u : CompilationUnit) : Prop where
  closed : w.Closed
  built : Catalog.build w.table u { enabled := config.enabled } = .ok w.catalog
  inside : ∀ d ∈ w.catalog.analyzable, w.nodes (.ofClassDecl d)
  start : ∀ d ∈ w.catalog.analyzable, w.Tracked (.start d.sym)

section Untied

variable {w : World} {config : Config} {u : CompilationUnit}

/-- All code inside the bounds of a world is closed. -/
theorem Covers.codeClosed (hw : Covers w config u) {checked : Bool} :
    CodeClosed { table := w.table, catalog := w.catalog, checked } w.nodes where
  child n c hn _ hc := hw.closed.below n c hn (.single hc)
  initializer d hd x hx :=
    hw.closed.below _ _ hd (.single (Node.ofMember_mem_children (List.mem_of_mem_filter hx)))
  method d hd md hmd b hb := hw.closed.below _ _ hd
    (.tail (.single (Node.method_mem_children hmd)) (by simp [Node.children, hb]))
  entry m e he := ⟨(hw.closed.entry m e he).1,
    ((Catalog.describes_of_build hw.built).entry m e he).declared⟩

/-- A session in which no references are tied has the outcome of one with any fixed order of tied
references. -/
theorem Covers.outcomeBy_eq (hw : Covers w config u) (huntied : w.Untied) {checked : Bool}
    {fuel : Nat} {walk : Walk}
    (hwalk : Varies { table := w.table, catalog := w.catalog, checked } fuel walk) {s : Session}
    (hs : s ∈ sessions { table := w.table, catalog := w.catalog, checked } config) :
    s.outcomeBy w.table walk =
      s.outcome { table := w.table, catalog := w.catalog, checked } fuel := by
  obtain ⟨d, hd, hmem⟩ := List.mem_flatMap.mp hs
  obtain ⟨stmts, -, rfl⟩ := List.mem_map.mp hmem
  exact sessionBy_eq (runUntilLeak_eq (exec_lawful hw.closed checked .running .byIdentity fuel)
    (hwalk.eq_exec hw.closed huntied)
    (fun stmt => codeClosed_session hw.codeClosed hw.inside hs) (hw.start d hd))

/-- Where no references are tied, what can be reported is reported with any fixed order of tied
references and with all bounds on the steps that are large enough. -/
theorem MayReport.exists_succeeds (hw : Covers w config u) (huntied : w.Untied)
    {diags : List Diagnostic} (h : MayReport w.table config u true diags) :
    ∃ n, ∀ fuel, n ≤ fuel →
      Succeeds w.table (fun env => exec env fuel) config u true diags := by
  obtain ⟨n, walk, hwalk, hrun⟩ := h
  refine ⟨n, fun fuel hfuel => ?_⟩
  rw [succeeds_iff] at hrun ⊢
  obtain ⟨cat, hcat, hstop, hdiags⟩ := hrun
  cases hcat.symm.trans hw.built
  let env : Env := { table := w.table, catalog := w.catalog, checked := config.invariants }
  have hclass : ∀ d ∈ w.catalog.analyzable,
      analyzeClassBy env (exec env fuel) config d = analyzeClassBy env (walk env) config d := by
    intro d hd
    rcases analyzeClassBy_cases env (walk env) config d with
      ⟨-, hquiet, -⟩ | ⟨-, -, -, e, -, -, -, h⟩ | h
    · refine analyzeClassBy_congr fun s hs => ?_
      have hsame := hw.outcomeBy_eq huntied (hwalk env) (List.mem_flatMap.mpr ⟨d, hd, hs⟩)
      have hend : (s.outcome env n).stop ≠ some .exhausted := by
        rw [← hsame, hquiet s hs]
        exact nofun
      exact (session_eq_of_le hend hfuel).trans hsame.symm
    · cases h.symm.trans (hstop d hd)
    · cases h.symm.trans (hstop d hd)
  refine ⟨w.catalog, hw.built, fun d hd => ?_, ?_⟩
  · exact (congrArg Outcome.stop (hclass d hd)).trans (hstop d hd)
  · rw [← hdiags]
    exact congrArg Diagnostic.ofTrails (List.flatMap_congr fun d hd =>
      congrArg Outcome.trails (hclass d hd))

theorem Succeeds.unique {t : SymbolTable} {walk : Env → Walk} {reporter : Bool}
    {diags diags' : List Diagnostic} (h : Succeeds t walk config u reporter diags)
    (h' : Succeeds t walk config u reporter diags') : diags = diags' := by
  obtain ⟨r, hr, -, rfl⟩ := h
  obtain ⟨r', hr', -, rfl⟩ := h'
  cases hr.symm.trans hr'
  rfl

end Untied

/-- The classes `A` and `R` with a constructor each, and a static method `register` of `R`. -/
def orderTable : SymbolTable where
  packages := #[{ name := "p" }]
  classes := #[{ name := "Object", owner := some (.package ⟨0⟩) },
    { name := "A", owner := some (.package ⟨0⟩), flags := .of [.publicAccess], super := some ⟨0⟩ },
    { name := "R", owner := some (.package ⟨0⟩), flags := .of [.publicAccess], super := some ⟨0⟩ }]
  methods := #[{ name := "register", owner := some ⟨2⟩, flags := .of [.publicAccess, .static] },
    { name := "<init>", owner := some ⟨1⟩, flags := .of [.publicAccess], isConstructor := true },
    { name := "<init>", owner := some ⟨2⟩, flags := .of [.publicAccess], isConstructor := true }]

/-- A constructor with the statement `R.register(this);`, the argument of which stands at a
position. -/
def orderConstructor (i : DeclId) (m : MethodId) (pos : Pos) : MethodDecl where
  id := i
  span := default
  sym := some m
  annotations := []
  params := []
  body := some ⟨default, false, [some (.exprStmt default (some (.call default
    (some (.select default (some (.typeName default (some ⟨2⟩))) "register" (some (.method ⟨0⟩))))
    [some (.ident ⟨pos, pos⟩ "this" none)])))]⟩

/-- A class with such a constructor. -/
def orderClass (i : DeclId) (c : ClassId) (md : MethodDecl) : ClassDecl where
  id := i
  span := default
  sym := some c
  annotations := []
  members := [.method md]

/-- The class `A`, which leaks at the position 22. -/
def firstClass : ClassDecl := orderClass ⟨0⟩ ⟨1⟩ (orderConstructor ⟨1⟩ ⟨1⟩ 22)

/-- The class `R`, which leaks at the position 76. -/
def secondClass : ClassDecl := orderClass ⟨2⟩ ⟨2⟩ (orderConstructor ⟨3⟩ ⟨2⟩ 76)

/-- The unit with the classes `A` and `R`. -/
def orderUnit : CompilationUnit where
  span := default
  name := "A.java"
  package := some ⟨0⟩
  module := none
  classes := [firstClass, secondClass]

/-- Its catalog. -/
def orderCatalog : Catalog where
  entries := [(⟨1⟩, ⟨firstClass, orderConstructor ⟨1⟩ ⟨1⟩ 22, true, true⟩),
    (⟨2⟩, ⟨secondClass, orderConstructor ⟨3⟩ ⟨2⟩ 76, true, true⟩)]
  analyzable := [firstClass, secondClass]

theorem build_orderUnit :
    Catalog.build orderTable orderUnit { enabled := true } = .ok orderCatalog := by
  cbv

theorem classes_orderUnit : (Node.file orderUnit).classes = [firstClass, secondClass] := by
  cbv

theorem orderUnit_consistent : orderUnit.Consistent orderTable where
  once := by
    rw [classes_orderUnit]
    decide
  classes := by
    rw [classes_orderUnit]
    decide
  methods := by
    rw [Catalog.methodSyms, classes_orderUnit]
    decide
  owner := by
    have hmethods (i : DeclId) (c : ClassId) (md : MethodDecl) :
        (orderClass i c md).methods = [md] := rfl
    simp only [classes_orderUnit, List.forall_mem_cons, firstClass, secondClass, hmethods]
    refine ⟨?_, ?_, List.forall_mem_nil _⟩ <;>
      · rintro _ ⟨⟩
        refine ⟨?_, List.forall_mem_nil _⟩
        rintro m ⟨⟩
        rfl

/-- The types that come up in the sessions over the unit. -/
def orderTypes : List (Option ClassId) := [none, some ⟨0⟩, some ⟨1⟩, some ⟨2⟩]

/-- The bounds of what comes up in the sessions over the unit; there are no variables. -/
def orderWorld : World where
  table := orderTable
  catalog := orderCatalog
  nodes := (Node.file orderUnit).Below
  types c := c ∈ orderTypes
  inds _ := True
  vars _ := False

theorem of_below_orderUnit {n : Node} (hn : (Node.file orderUnit).Below n) :
    (∀ c ∈ n.types, c ∈ orderTypes) ∧ n.target? = none := by
  have hall : Node.allWithin (fun n => n.types.all (· ∈ orderTypes) && n.target?.isNone) 8
      (.file orderUnit) = true := by decide +kernel
  simpa using (Node.of_allWithin hall).2 n hn

/-- No class of the unit is declared in another one. -/
theorem enclosing_orderTable : ∀ c : ClassId,
    (orderTable.owners (.cls c)).tail.filterMap Symbol.class? = []
  | ⟨0⟩ | ⟨1⟩ | ⟨2⟩ | ⟨_ + 3⟩ => rfl

theorem orderWorld_closed : orderWorld.Closed where
  below _ _ hn hc := hn.trans hc
  entry := (unitWorld_closed (t := orderTable)
    (Catalog.describes_of_build build_orderUnit)).entry
  named _ hn := (of_below_orderUnit hn).1
  var _ := List.mem_cons_self
  owner
  | ⟨0⟩ => by change some _ ∈ orderTypes; decide
  | ⟨1⟩ => by change some _ ∈ orderTypes; decide
  | ⟨2⟩ => by change some _ ∈ orderTypes; decide
  | ⟨_ + 3⟩ => List.mem_cons_self
  elem
  | ⟨0⟩ | ⟨1⟩ | ⟨2⟩ | ⟨_ + 3⟩ => List.mem_cons_self
  enclosing c := by
    rw [SymbolTable.enclosing?, show orderWorld.table = orderTable from rfl, enclosing_orderTable]
    exact List.mem_cons_self
  enclosingSubclass c base := by
    rw [SymbolTable.enclosingSubclass?, show orderWorld.table = orderTable from rfl,
      enclosing_orderTable]
    exact List.mem_cons_self
  ind _ _ _ _ := trivial
  target n hn v hv := nomatch (of_below_orderUnit hn).2.symm.trans hv.target?_eq

theorem orderWorld_covers : Covers orderWorld {} orderUnit where
  closed := orderWorld_closed
  built := build_orderUnit
  inside := (Catalog.describes_of_build build_orderUnit).analyzable
  start d hd r hr := by
    obtain rfl : r = .start d.sym := by simpa [State.start] using hr
    have htype : ∀ d ∈ orderCatalog.analyzable, d.sym ∈ orderTypes := by decide
    exact ⟨htype d hd, trivial, fun v hv => by cases hv⟩

theorem orderWorld_untied : orderWorld.Untied where
  types := by
    have htexts : ∀ c ∈ orderTypes, ∀ c' ∈ orderTypes,
        orderTable.classText c = orderTable.classText c' → c = c' := by decide +kernel
    exact fun c c' hc hc' => htexts c hc c' hc'
  vars _ _ := nofun

/-- The surroundings of the sessions over the two classes. -/
def orderEnv : Env := { table := orderTable, catalog := orderCatalog }

theorem analyzeClass_orderUnit :
    analyzeClass orderEnv 20 {} firstClass =
      { trails := [[22]], log := [.possibleEscape "p.A" 1, .analyzedClass "p.A" 1] } ∧
    analyzeClass orderEnv 20 {} secondClass =
      { trails := [[76]], log := [.possibleEscape "p.R" 1, .analyzedClass "p.R" 1] } := by
  constructor <;> decide +kernel

end Analysis

end EarlyEscape
