import EarlyEscape.Proofs.Analysis.Trails
import EarlyEscape.Proofs.Catalog.Entries

/-!
# Suppressed code in trails

Warnings can be suppressed for methods, constructors and fields.  The analysis tests this where it
starts a session and where a call names a method.  It does not test it on the other ways into code:
when a call is resolved to a method that overrides the named one, when a constructor or the creation
of an anonymous class runs the initializers of fields, and for the methods of anonymous classes.  A
trail leads through suppressed code on these ways alone.

## Main definitions

* `Interp.Callee.SuppressedAt` : a node lies in the part of some code for which warnings are
  suppressed.
* `Interp.Untested` : the ways into suppressed code on which suppression is not tested.
* `Analysis.TopLevel` : the statements from which sessions of a class start.

## Main results

* `Analysis.trail_suppressed_untested` : a trail leads through suppressed code on these ways alone.
* `Analysis.suppressed_field_leaks` : it does lead through the initializer of a suppressed field.
-/

namespace EarlyEscape

namespace Interp

/-- Warnings are suppressed for the method that is declared. -/
def SuppressedMethod (env : Env) (md : MethodDecl) : Prop :=
  ∃ m, md.sym = some m ∧ env.catalog.isSuppressed (.method m) = true

/-- Warnings are suppressed for the field that is declared. -/
def SuppressedField (env : Env) (fd : VarDecl) : Prop :=
  ∃ v, fd.sym = some v ∧ env.catalog.isSuppressed (.var v) = true

/-- The node lies in the initializer of a field of the class for which warnings are suppressed. -/
def InSuppressedField (env : Env) (d : ClassDecl) (n : Node) : Prop :=
  ∃ fd x, .field fd ∈ d.initializers env.table ∧ SuppressedField env fd ∧ fd.init = some x ∧
    (Node.expr x).Within n

/-- The node lies in the body of a method for which warnings are suppressed, or in the initializer
of such a field that the code runs. -/
def Callee.SuppressedAt (env : Env) : Callee → Node → Prop
  | method e body, n => SuppressedMethod env e.decl ∧ (Node.ofBlock body).Below n ∨
      e.decl.isConstructor env.table = true ∧ isThisCall body.stmts.head?.join = false ∧
        InSuppressedField env e.cls n
  | initializers d _, n => InSuppressedField env d n
  | later md body _, n => SuppressedMethod env md ∧ (Node.ofBlock body).Below n

/-- The ways from an occurrence to a node in suppressed code on which suppression is not tested. -/
inductive Untested (env : Env) (o : Occurrence) : Callee → Node → Prop
  /-- The call names a method outside the unit that a method of the unit overrides. -/
  | overrider {named m : MethodId} {args : List (Option Expr)} {r : Ref} {e : Catalog.Entry}
      {body : Block} {n : Node} (hcall : Invokes env o.task o.state o.node (some named) args [r])
      (houtside : env.catalog.lookup? (some named) = none) (hsym : e.decl.sym = some m)
      (hoverrides : env.table.overrides m named r.type = true)
      (hmethod : e.decl.isConstructor env.table = false) : Untested env o (.method e body) n
  /-- The call is that of a constructor for which warnings are not suppressed.  It runs the
  initializer of a field. -/
  | field {e : Catalog.Entry} {body : Block} {n : Node}
      (hconstructor : e.decl.isConstructor env.table = true)
      (hfirst : isThisCall body.stmts.head?.join = false)
      (hwarns : ¬SuppressedMethod env e.decl)
      (hfield : InSuppressedField env e.cls n) : Untested env o (.method e body) n
  /-- The creation of an instance of an anonymous class runs the initializer of a field. -/
  | anonymousField {d : ClassDecl} {cls : Option ClassId} {n : Node}
      (hfield : InSuppressedField env d n) : Untested env o (.initializers d cls) n
  /-- The method is one of an anonymous class. -/
  | anonymousMethod {md : MethodDecl} {body : Block} {cls : Option ClassId} {n : Node}
      (hsup : SuppressedMethod env md) : Untested env o (.later md body cls) n

/-- A method that overrides another one is no constructor. -/
theorem not_isConstructor_of_overrides {t : SymbolTable} {m named : MethodId}
    {origin : Option ClassId} (h : t.overrides m named origin = true) (hne : m ≠ named) :
    (t.method m).isConstructor = false := by
  have hsame : t.sameSignature m named = true := by
    simp only [SymbolTable.overrides, Bool.or_eq_true, Bool.and_eq_true, beq_iff_eq] at h
    exact (h.resolve_left hne).1.1.1
  simp only [SymbolTable.sameSignature, Bool.and_eq_true, Bool.not_eq_true'] at hsame
  exact hsame.1.1.1.1.1.1

/-- The body of a suppressed method is entered only from a call that names another method, which
stands outside the unit and is overridden by it. -/
theorem CallSite.exists_overrides {env : Env} {root : Node} (hcat : env.catalog.Describes root)
    {t : Task} {s : State} {n : Node} {e : Catalog.Entry} {body : Block}
    (h : CallSite env t s n (.method e body)) (hsup : SuppressedMethod env e.decl) :
    ∃ named m args r, Invokes env t s n (some named) args [r] ∧
      env.catalog.lookup? (some named) = none ∧ e.decl.sym = some m ∧
      env.table.overrides m named r.type = true ∧ e.decl.isConstructor env.table = false := by
  obtain ⟨m, hsym, hs⟩ := hsup
  cases h with
  | method hcall hknown =>
    obtain ⟨m', rfl, he⟩ | ⟨named, m', r, rfl, rfl, houtside, he, hoverrides⟩ :=
      resolve?_eq_ok hknown.resolved
    · -- a call that names a suppressed method has no effect
      cases (hcat.entry m' e he).named.symm.trans hsym
      have hexempt := hknown.exempt
      simp [isExempt, hs] at hexempt
    · cases (hcat.entry m' e he).named.symm.trans hsym
      have hne : m ≠ named := by
        rintro rfl
        have hother := List.lookup_eq_none_iff.mp houtside (m, e) he
        simp at hother
      refine ⟨named, m, _, r, hcall, houtside, hsym, hoverrides, ?_⟩
      simp [MethodDecl.isConstructor, hsym, not_isConstructor_of_overrides hoverrides hne]

/-- Suppressed code is entered on the ways alone on which suppression is not tested. -/
theorem Occurrence.EnteredFrom.untested {env : Env} {root : Node}
    (hcat : env.catalog.Describes root) {c : Callee} {a b : Occurrence}
    (h : a.EnteredFrom env c b) (hsup : c.SuppressedAt env a.node) : Untested env b c a.node := by
  cases c with
  | method e body =>
    rcases hsup with ⟨hsup, -⟩ | ⟨hconstructor, hfirst, hfield⟩
    · obtain ⟨named, m, args, r, hcall, houtside, hsym, hoverrides, hmethod⟩ :=
        h.site.exists_overrides hcat hsup
      exact .overrider hcall houtside hsym hoverrides hmethod
    · refine .field hconstructor hfirst (fun hsup => ?_) hfield
      obtain ⟨-, -, -, -, -, -, -, -, hmethod⟩ := h.site.exists_overrides hcat hsup
      cases hconstructor.symm.trans hmethod
  | initializers d cls => exact .anonymousField hsup
  | later md body cls => exact .anonymousMethod hsup.1

end Interp

namespace Analysis

open Interp

/-! ### The trails of a class -/

/-- The statements from which the sessions of a class start: those of its initializer blocks, its
fields for which warnings are not suppressed, and those of the constructors that the analysis starts
from.  Warnings are not suppressed for such a constructor either, unless the unit `u` declares it
twice. -/
inductive TopLevel (env : Env) (u : CompilationUnit) (d : ClassDecl) : Stmt → Prop
  | block {b : Block} {stmt : Stmt} (hb : .initializer b ∈ d.initializers env.table)
      (hstmt : some stmt ∈ b.stmts) : TopLevel env u d stmt
  | field {fd : VarDecl} (hfd : .field fd ∈ d.initializers env.table)
      (hsup : ¬SuppressedField env fd) : TopLevel env u d (.varDecl fd)
  | body {ctor : MethodDecl} {b : Block} {stmt : Stmt} (hctor : ctor ∈ analyzableConstructors env d)
      (hb : ctor.body = some b) (hstmt : some stmt ∈ b.stmts)
      (hsup : SuppressedMethod env ctor → ∃ m, ctor.sym = some m ∧
        Catalog.DeclaredTwice (.file u) m) : TopLevel env u d stmt

/-- Sessions one after the other have no other trails than each of them. -/
theorem exists_mem_of_mem_trails_all {os : List Outcome} {trail : Trail}
    (h : trail ∈ (Outcome.all os).trails) : ∃ o ∈ os, trail ∈ o.trails := by
  revert h
  refine List.foldlRecOn (motive := fun a : Outcome => trail ∈ a.trails →
    ∃ o ∈ os, trail ∈ o.trails) os Outcome.andThen nofun fun a ih o ho hmem => ?_
  unfold Outcome.andThen at hmem
  split at hmem
  · exact ih hmem
  · rcases List.mem_append.mp hmem with hmem | hmem
    · exact ih hmem
    · exact ⟨o, ho, hmem⟩

/-- The statements of a session over an initializer are such statements. -/
theorem topLevel_of_initializerStmts {env : Env} {u : CompilationUnit} {d : ClassDecl} {x : Member}
    (hx : x ∈ d.initializers env.table) {stmts : List (Option Stmt)}
    (h : initializerStmts env x = some stmts) {stmt : Stmt} (hstmt : some stmt ∈ stmts) :
    TopLevel env u d stmt := by
  cases x with
  | initializer b =>
    cases h
    exact .block hx hstmt
  | field fd =>
    simp only [initializerStmts] at h
    split at h
    · cases h
    · next hsup =>
      cases h
      cases List.mem_singleton.mp hstmt
      refine .field hx ?_
      rintro ⟨v, hv, hs⟩
      exact hsup (by simp [hv, hs])
  | method | nested | unknown => cases h

/-- So are the statements of a constructor that the analysis starts from. -/
theorem topLevel_of_constructor {env : Env} {u : CompilationUnit} {lint : Lint}
    (hcat : Catalog.build env.table u lint = .ok env.catalog) {d : ClassDecl} {ctor : MethodDecl}
    (hctor : ctor ∈ analyzableConstructors env d) {b : Block} (hb : ctor.body = some b)
    {stmt : Stmt} (hstmt : some stmt ∈ b.stmts) : TopLevel env u d stmt := by
  refine .body hctor hb hstmt ?_
  rintro ⟨m, hm, hs⟩
  have hentry := (List.mem_filter.mp hctor).2
  simp only [hm, Catalog.lookup?, Option.bind_some, Option.any_eq_true] at hentry
  obtain ⟨e, hlookup, ha⟩ := hentry
  obtain ⟨l, l', hl, -⟩ := List.lookup_eq_some_iff.mp hlookup
  have he : (m, e) ∈ env.catalog.entries := hl ▸ List.mem_append_right l List.mem_cons_self
  exact ⟨m, hm, Catalog.declaredTwice_of_analyzable hcat he ha hs⟩

/-- A trail of a class that the analysis starts from is the list of the positions in a call chain.
The outermost node lies in a statement from which a session of the class starts, and so not in a
constructor or field for which warnings are suppressed; each of the others lies in the code of a
call, and if warnings are suppressed there, the code was entered on one of the ways on which
suppression is not tested. -/
theorem trail_suppressed_untested (env : Env) (u : CompilationUnit) (lint : Lint)
    (hcat : Catalog.build env.table u lint = .ok env.catalog) (fuel : Nat) (d : ClassDecl)
    (trail : Trail)
    (h : trail ∈ (initializers env fuel d).trails ∨
      ∃ ctor ∈ analyzableConstructors env d, trail ∈ (constructor env fuel d ctor).trails) :
    ∃ stmt s os, TopLevel env u d stmt ∧ LeakChain env (.stmt stmt) s os ∧
      trail = os.map (·.node.pos) ∧
      os.IsChain fun a b => ∃ c, a.EnteredFrom env c b ∧
        (c.SuppressedAt env a.node → Untested env b c a.node) := by
  obtain ⟨stmts, htop, htrail⟩ : ∃ stmts, (∀ stmt, some stmt ∈ stmts → TopLevel env u d stmt) ∧
      trail ∈ (session env fuel d.sym stmts).trails := by
    rcases h with h | ⟨ctor, hctor, h⟩
    · obtain ⟨o, ho, htrail⟩ := exists_mem_of_mem_trails_all h
      obtain ⟨stmts, hstmts, rfl⟩ := List.mem_map.mp ho
      obtain ⟨x, hx, hxs⟩ := List.mem_filterMap.mp hstmts
      exact ⟨stmts, fun _ => topLevel_of_initializerStmts hx hxs, htrail⟩
    · unfold constructor constructorBy at h
      split at h
      · cases h
      · next b hb => exact ⟨b.stmts, fun _ => topLevel_of_constructor hcat hctor hb, h⟩
  obtain ⟨before, stmt, after, s, -, os, rfl, -, -, -, -, hchain, hos⟩ := exists_leakChain htrail
  refine ⟨stmt, s, os, htop stmt (by simp), hchain, hos, hchain.entered.imp ?_⟩
  rintro a b ⟨c, hentered⟩
  exact ⟨c, hentered, hentered.untested (Catalog.describes_of_build hcat)⟩

/-! ### A trail through a suppressed field -/

/-- The unit with the class `A`, whose field `f` has warnings suppressed. -/
def fieldUnit : CompilationUnit where
  span := ⟨1, 60⟩
  name := "A.java"
  package := some ⟨0⟩
  module := none
  classes := [fieldClass]

/-- The walk through the members of the class meets no class. -/
theorem visit_fieldMembers (t : SymbolTable) (inside : Catalog.Place) (b : Catalog.Builder) :
    fieldClass.members.foldlM (Catalog.Builder.visitMember t none inside) b = .ok b := by
  have hfield : Catalog.Builder.visitMember t none inside b (.field fieldDecl) = .ok b := by
    simp only [Catalog.Builder.visitMember, Catalog.codeOf, fieldDecl, Option.map_some]
    -- which warnings are suppressed does not matter
    generalize inside.augment _ = inside
    cbv
  rw [fieldClass, List.foldlM_cons, hfield]
  cbv

theorem build_fieldUnit :
    Catalog.build fieldTable fieldUnit { enabled := true } = .ok fieldEnv.catalog := by
  have hvisit : Catalog.Builder.visit fieldTable none ⟨false, { enabled := true }⟩
      (.ofClassDecl fieldClass) {} = .ok ⟨fieldEnv.catalog, [⟨0⟩]⟩ :=
    (Catalog.Builder.visit_newClass ⟨false, { enabled := true }⟩ fieldEnv.catalog List.not_mem_nil
      rfl (by decide +kernel) rfl rfl).trans (visit_fieldMembers ..)
  rw [Catalog.build, fieldUnit, List.foldlM_cons, hvisit]
  rfl

theorem fieldConstructor_analyzable :
    fieldConstructor ∈ analyzableConstructors fieldEnv fieldClass :=
  List.mem_filter.mpr ⟨List.mem_filter.mpr ⟨List.mem_cons_self, rfl⟩, by decide⟩

theorem trails_fieldConstructor :
    (constructor fieldEnv 10 fieldClass fieldConstructor).trails = [[22, 32]] := by
  decide +kernel

/-- The trail of the leak in the initializer of the field. -/
theorem trail_suppressed_untested_field :
    ∃ stmt s os, TopLevel fieldEnv fieldUnit fieldClass stmt ∧
      LeakChain fieldEnv (.stmt stmt) s os ∧ [22, 32] = os.map (·.node.pos) ∧
      os.IsChain fun a b => ∃ c, a.EnteredFrom fieldEnv c b ∧
        (c.SuppressedAt fieldEnv a.node → Untested fieldEnv b c a.node) := by
  refine trail_suppressed_untested fieldEnv fieldUnit { enabled := true } build_fieldUnit 10
    fieldClass [22, 32] (.inr ⟨fieldConstructor, fieldConstructor_analyzable, ?_⟩)
  rw [trails_fieldConstructor]
  exact List.mem_singleton_self _

/-- No session starts from the field, for which warnings are suppressed, but the session over the
constructor `A()` reports the leak in its initializer, which `A(int)` runs. -/
theorem suppressed_field_leaks :
    Catalog.build fieldTable fieldUnit { enabled := true } = .ok fieldEnv.catalog ∧
    fieldClass ∈ fieldEnv.catalog.analyzable ∧ (initializers fieldEnv 10 fieldClass).trails = [] ∧
    fieldConstructor ∈ analyzableConstructors fieldEnv fieldClass ∧
    (constructor fieldEnv 10 fieldClass fieldConstructor).trails = [[22, 32]] ∧
    InSuppressedField fieldEnv fieldClass (.expr fieldValue) ∧
    (Node.expr fieldValue).pos = 22 := by
  refine ⟨build_fieldUnit, List.mem_cons_self, by decide +kernel, fieldConstructor_analyzable,
    trails_fieldConstructor, ?_, rfl⟩
  refine ⟨fieldDecl, _, List.mem_filter.mpr ⟨List.mem_cons_self, rfl⟩, ⟨⟨0⟩, rfl, rfl⟩, rfl, ?_⟩
  exact .single (by simp [Node.children, Node.exprChildren])

end Analysis

end EarlyEscape
