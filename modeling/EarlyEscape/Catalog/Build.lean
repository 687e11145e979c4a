import EarlyEscape.Catalog.Basic
import EarlyEscape.Syntax.Traversal

/-!
# Building the catalog

One walk over a compilation unit, from the outside in, finds every class declaration, also those
inside methods, initializers and expressions, and classifies their members.  What holds at a place
of the unit (`Place`) is handed down: whether an enclosing class is not public and whether warnings
are suppressed.

A class declaration counts once, and one without a symbol is left alone together with everything in
it.

## Main definitions

* `Catalog.Place` : what the enclosing declarations of a place say.
* `Catalog.Builder.addClass` : records one class with its methods and fields.
* `Catalog.Builder.visit` : the walk.
* `Catalog.build` : the catalog of a unit.
-/

namespace EarlyEscape

namespace Catalog

/-- What the declarations around a place of a unit say. -/
structure Place where
  /-- Whether a class around the place is not public. -/
  nonPublicOuter : Bool
  lint : Lint

namespace Place

/-- The place inside a declaration with the given annotations. -/
def augment (p : Place) (annotations : List Annotation) : Place :=
  { p with lint := p.lint.augment annotations }

/-- The place inside the declaration of a class. -/
def enterClass (p : Place) (t : SymbolTable) (d : ClassDecl) (c : ClassId) : Place :=
  { nonPublicOuter := p.nonPublicOuter || (t.cls c).isAnonymous || !(t.cls c).isPublic
    lint := p.lint.augment d.annotations }

end Place

/-- Why a unit has no catalog. -/
inductive BuildError where
  /-- A node of an unknown sort is in the unit. -/
  | unknownNode (u : UnknownNode)
  /-- Something about a class cannot be told. -/
  | untold (u : Untold)
deriving DecidableEq, Repr

/-- Whether the package of the class `c` decides if code outside the module can declare a subclass
of it. -/
def dependsOnPackage (t : SymbolTable) (c : ClassId) : Bool :=
  !(t.cls c).isFinal && (t.cls c).isPublic

/-- Whether code outside the module can declare a subclass of the class `c`, declared in a unit of
the given module. -/
def isExtendable (t : SymbolTable) (module : Option ModuleId) (inside : Place) (c : ClassId) :
    Bool :=
  !(t.cls c).isFinal && (t.cls c).isPublic && t.exports module (t.packageOf? c) &&
    !(t.cls c).isSealed && !(t.cls c).isLocalOrAnonymous && !inside.nonPublicOuter

/-- The classification of the method `m`, declared by `d` in a class that outside code may extend
or not. -/
def classify (t : SymbolTable) (inside : Place) (extendable : Bool) (cls : ClassDecl)
    (d : MethodDecl) (m : MethodId) : Entry :=
  let info := t.method m
  { cls
    decl := d
    analyzable := extendable && info.isConstructor && info.isPublicOrProtected &&
      (inside.augment d.annotations).lint.isEnabled
    invokable := !extendable || info.isConstructor ||
      info.flags.hasAny [.static, .privateAccess, .final] }

/-- The state of the walk: the catalog so far and the class declarations already met. -/
structure Builder where
  catalog : Catalog := {}
  seen : List DeclId := []

namespace Builder

/-- Records a method of a class. -/
def addMethod (t : SymbolTable) (inside : Place) (extendable : Bool) (cls : ClassDecl)
    (cat : Catalog) (d : MethodDecl) : Catalog :=
  match d.sym with
  | none => cat
  | some m =>
    let cat := if (inside.augment d.annotations).lint.isEnabled then cat
      else { cat with suppressed := .method m :: cat.suppressed }
    cat.record m (classify t inside extendable cls d m)

/-- Records a field of a class. -/
def addField (inside : Place) (cat : Catalog) (d : VarDecl) : Catalog :=
  match d.sym with
  | none => cat
  | some v =>
    if (inside.augment d.annotations).lint.isEnabled then cat
    else { cat with suppressed := .var v :: cat.suppressed }

/-- Records a member of a class. -/
def addMember (t : SymbolTable) (inside : Place) (extendable : Bool) (cls : ClassDecl)
    (cat : Catalog) : Member → Catalog
  | .method d => addMethod t inside extendable cls cat d
  | .field d => addField inside cat d
  | _ => cat

/-- Records the class `c` declared by `d`, with its methods and fields. -/
def addClass (t : SymbolTable) (module : Option ModuleId) (inside : Place) (d : ClassDecl)
    (c : ClassId) (cat : Catalog) : Catalog :=
  let extendable := isExtendable t module inside c
  let cat := if inside.nonPublicOuter then { cat with nonPublic := c :: cat.nonPublic } else cat
  let cat := d.members.foldl (addMember t inside extendable d) cat
  if d.methods.any fun m => m.sym.any fun s => (classify t inside extendable d m s).analyzable then
    { cat with analyzable := cat.analyzable ++ [d] }
  else cat

end Builder

/-- The part of a member that holds code or another class, with the annotations of the member that
are in effect there. -/
def codeOf : Member → Option (List Annotation × Node)
  | .field d => d.init.map fun e => (d.annotations, .expr e)
  | .method d => d.body.map fun b => (d.annotations, .ofBlock b)
  | .initializer b => some ([], .ofBlock b)
  | .nested d => some ([], .ofClassDecl d)
  | .unknown .. => none

private theorem sizeOf_codeOf {m : Member} {as : List Annotation} {n : Node}
    (h : codeOf m = some (as, n)) : sizeOf n ≤ sizeOf m + 1 := by
  cases m with
  | field d =>
    obtain ⟨e, he, h⟩ := Option.map_eq_some_iff.mp h
    cases d
    simp only [Prod.mk.injEq] at h he
    obtain ⟨-, rfl⟩ := h
    subst he
    simp
    omega
  | method d =>
    obtain ⟨b, hb, h⟩ := Option.map_eq_some_iff.mp h
    cases d
    simp only [Prod.mk.injEq] at h hb
    obtain ⟨-, rfl⟩ := h
    subst hb
    simp
    omega
  | initializer b =>
    simp only [codeOf, Option.some.injEq, Prod.mk.injEq] at h
    obtain ⟨-, rfl⟩ := h
    simp
    omega
  | nested d =>
    simp only [codeOf, Option.some.injEq, Prod.mk.injEq] at h
    obtain ⟨-, rfl⟩ := h
    simp
    omega
  | unknown => simp [codeOf] at h

private theorem sizeOf_code_lt {d : ClassDecl} {m : Member} {as : List Annotation} {n : Node}
    (hm : m ∈ d.members) (h : codeOf m = some (as, n)) :
    sizeOf n < sizeOf (Node.ofClassDecl d) := by
  have h1 := sizeOf_codeOf h
  have h2 := List.sizeOf_lt_of_mem hm
  cases d
  simp at h2 ⊢
  omega

private theorem sizeOf_init_lt {d : VarDecl} {e : Expr} (h : d.init = some e) :
    sizeOf (Node.expr e) < sizeOf (Node.ofVarDecl d) := by
  cases d
  simp only at h
  subst h
  simp
  omega

namespace Builder

/-- The walk from a node at a place: classes are recorded, the initializers of local variables
see the annotations of the variable, and all other nodes hand on to their children. -/
def visit (t : SymbolTable) (module : Option ModuleId) (p : Place) (n : Node) (b : Builder) :
    Except BuildError Builder :=
  match n with
  | .stmt (.classDecl d) =>
    if b.seen.contains d.id then .ok b
    else
      let b := { b with seen := d.id :: b.seen }
      match d.sym with
      | none => .ok b
      | some c =>
        if dependsOnPackage t c && t.isStray c then .error (.untold .package)
        else
          let inside := p.enterClass t d c
          let b := { b with catalog := addClass t module inside d c b.catalog }
          d.members.attach.foldlM (fun b m =>
            match _h : codeOf m.1 with
            | none => .ok b
            | some (as, n) => visit t module (inside.augment as) n b) b
  | .stmt (.varDecl d) =>
    match _h : d.init with
    | none => .ok b
    | some e => visit t module (p.augment d.annotations) (.expr e) b
  | n =>
    if n.isKnown then n.children.attach.foldlM (fun b c => visit t module p c.1 b) b
    else .error (.unknownNode ⟨n.sortText⟩)
termination_by sizeOf n
decreasing_by
  · exact sizeOf_code_lt m.2 _h
  · exact sizeOf_init_lt _h
  · exact Node.sizeOf_lt_of_mem_children c.2

end Builder

end Catalog

/-- The catalog of a compilation unit, with warnings enabled for the unit or not. -/
def Catalog.build (t : SymbolTable) (u : CompilationUnit) (lint : Lint) :
    Except BuildError Catalog := do
  let b ← u.classes.foldlM
    (fun b d => Builder.visit t u.module ⟨false, lint⟩ (.ofClassDecl d) b) {}
  return b.catalog

end EarlyEscape
