import EarlyEscape.Proofs.Catalog.Entries
import EarlyEscape.Proofs.Interp.Frame
import EarlyEscape.Proofs.Syntax.Identity

/-!
# The code of a compilation unit

The nodes inside a compilation unit are closed under all that the interpreter comes to with the
catalog of the unit.  A declaration has one code there: the identity of a node tells the node and
what it stands in.

## Main definitions

* `Analysis.unitWorld` : the code of a compilation unit.

## Main results

* `Analysis.unitWorld_closed` : the interpretation of code in the unit does not leave it.
* `Analysis.unitWorld_oneCode` : a declaration of a unit has one code.
-/

namespace EarlyEscape.Analysis

open Interp
open Node (method_mem_children body_mem_children)

/-- The world of a compilation unit: all nodes inside. -/
def unitWorld (t : SymbolTable) (cat : Catalog) (u : CompilationUnit) : World where
  table := t
  catalog := cat
  nodes n := (Node.file u).Below n
  types _ := True
  inds _ := True
  vars _ := True

section Unit

variable {t : SymbolTable} {cat : Catalog} {u : CompilationUnit}

theorem unitWorld_closed (hcat : cat.Describes (.file u)) : (unitWorld t cat u).Closed where
  below _ _ hn hc := hn.trans hc
  entry m e he := by
    have h := hcat.entry m e he
    exact ⟨h.inside, .tail h.inside (method_mem_children h.declared)⟩
  named _ _ _ _ := trivial
  var _ := trivial
  owner _ := trivial
  elem _ := trivial
  enclosing _ := trivial
  enclosingSubclass _ _ := trivial
  ind _ _ _ _ := trivial
  target _ _ _ _ := trivial

theorem unitWorld_tracked (s : State) : (unitWorld t cat u).Tracked s :=
  fun _ _ => ⟨trivial, trivial, fun _ _ => trivial⟩

/-- A method that is no constructor runs its body. -/
theorem runMethod_of_not_constructor {env : Env} {walk : Walk} {e : Catalog.Entry} {body : Block}
    (h : e.decl.isConstructor env.table = false) :
    runMethod env walk e body = runBlock walk (some body) := by
  simp [runMethod, h]

/-- In a unit in which no identity occurs twice, a declaration inside and the node that it stands in
are determined by the identity. -/
theorem eq_of_declId? (hids : (Node.file u).declIds.Nodup) {p p' c c' : Node}
    (hp : (Node.file u).Below p) (hc : c ∈ p.children) (hp' : (Node.file u).Below p')
    (hc' : c' ∈ p'.children) {i : DeclId} (hi : c.declId? = some i) (hi' : c'.declId? = some i) :
    p = p' ∧ c = c' :=
  Node.eq_of_declId?_eq hids hp.to_reflTransGen hc hi hp'.to_reflTransGen hc' hi'

/-- A method of an anonymous class runs the same code when it is called as in the creation of an
instance. -/
theorem code_eq_of_later (hcat : cat.Describes (.file u))
    (hids : (Node.file u).declIds.Nodup) {s : MethodId} {e : Catalog.Entry} {body body' : Block}
    (he : (s, e) ∈ cat.entries) (hb : e.decl.body = some body) {span : Span} {outer : Option Expr}
    {cls : Option ClassId} {ctor : Option MethodId} {args : List (Option Expr)} {d : ClassDecl}
    {md : MethodDecl} (hn : (Node.file u).Below (.expr (.new span outer cls ctor args (some d))))
    (hm : md ∈ d.methods) (hb' : md.body = some body') (hctor : md.isConstructor t = false)
    (hid : e.decl.id = md.id) :
    e.cls.sym = d.sym.or cls ∧ (Callee.method e body).program (unitWorld t cat u) =
      (Callee.later md body' (d.sym.or cls)).program (unitWorld t cat u) := by
  have hentry := hcat.entry s e he
  obtain ⟨hcls, hdecl⟩ := eq_of_declId? hids hentry.inside (method_mem_children hentry.declared)
    (.tail hn body_mem_children) (method_mem_children hm) rfl (congrArg some hid.symm)
  cases hcls
  cases hdecl
  rw [hb] at hb'
  cases hb'
  refine ⟨?_, funext fun m => runMethod_of_not_constructor hctor⟩
  obtain ⟨c, hc⟩ := Option.ne_none_iff_exists'.mp hentry.classNamed
  rw [hc, Option.some_or]

/-- In a unit in which no identity occurs twice, a declaration has one code. -/
theorem unitWorld_oneCode (hcat : cat.Describes (.file u)) (hids : (Node.file u).declIds.Nodup) :
    (unitWorld t cat u).OneCode := by
  intro c c' h h' hi
  cases h with
  | @method m e body he hb =>
    have hentry := hcat.entry m e he
    have hmem := method_mem_children hentry.declared
    cases h' with
    | @method m' e' body' he' hb' =>
      have hentry' := hcat.entry m' e' he'
      obtain ⟨-, hdecl⟩ := eq_of_declId? hids hentry.inside hmem hentry'.inside
        (method_mem_children hentry'.declared) rfl (congrArg some hi.symm)
      injection hdecl with hdecl
      obtain rfl : m = m' := Option.some.inj (hentry.named.symm.trans (hdecl ▸ hentry'.named))
      obtain rfl := hcat.single m e e' he he'
      cases hb.symm.trans hb'
      exact ⟨rfl, rfl⟩
    | initializers hn =>
      cases (eq_of_declId? hids hentry.inside hmem hn body_mem_children rfl
        (congrArg some hi.symm)).1
    | later hn hm hb' hctor =>
      exact code_eq_of_later hcat hids he hb hn hm hb' hctor hi
  | @initializers _ _ _ _ _ d hn =>
    cases h' with
    | method he hb =>
      have hentry := hcat.entry _ _ he
      cases (eq_of_declId? hids hn body_mem_children hentry.inside
        (method_mem_children hentry.declared) rfl (congrArg some hi.symm)).1
    | initializers hn' =>
      obtain ⟨heq, -⟩ := eq_of_declId? hids hn body_mem_children hn' body_mem_children rfl
        (congrArg some hi.symm)
      cases heq
      exact ⟨rfl, rfl⟩
    | later hn' hm =>
      cases (eq_of_declId? hids hn body_mem_children (.tail hn' body_mem_children)
        (method_mem_children hm) rfl (congrArg some hi.symm)).1
  | @later _ _ _ _ _ d md body hn hm hb hctor =>
    have hbelow : (Node.file u).Below (.ofClassDecl d) := .tail hn body_mem_children
    cases h' with
    | method he hb' =>
      obtain ⟨hcls, hx⟩ := code_eq_of_later hcat hids he hb' hn hm hb hctor hi.symm
      exact ⟨hcls.symm, hx.symm⟩
    | initializers hn' =>
      cases (eq_of_declId? hids hbelow (method_mem_children hm) hn' body_mem_children rfl
        (congrArg some hi.symm)).1
    | @later _ _ _ _ _ d' _ _ hn' hm' hb' =>
      obtain ⟨hcls, hdecl⟩ := eq_of_declId? hids hbelow (method_mem_children hm)
        (.tail hn' body_mem_children) (method_mem_children hm') rfl (congrArg some hi.symm)
      cases hcls
      cases hdecl
      -- the body of the class stands in one creation of an instance
      obtain ⟨heq, -⟩ := eq_of_declId? hids hn body_mem_children hn' body_mem_children rfl rfl
      cases heq
      cases hb.symm.trans hb'
      exact ⟨rfl, rfl⟩

end Unit

end EarlyEscape.Analysis
