import EarlyEscape.Proofs.Catalog.Entries
import EarlyEscape.Proofs.Interp.Parallel
import EarlyEscape.Proofs.Syntax.Parentheses

/-!
# The catalog and parentheses

Parentheses in a unit do not change how its methods are classified.  The catalog of the unit with
parentheses added is that of the unit without them, except that the code of the entries has the
parentheses as well; and if one of the units has no catalog the other has none either, for the same
reason.

## Main definitions

* `Catalog.WithParens` : the second catalog is the first one with parentheses added in the code.

## Main results

* `Catalog.build_withParens` : the catalogs of a unit without and with parentheses.
-/

namespace EarlyEscape

open Function

namespace Catalog

/-! ### Catalogs -/

/-- The second entry is the first one with parentheses added. -/
structure Entry.WithParens (e e' : Entry) : Prop where
  cls : Node.WithParens (.ofClassDecl e.cls) (.ofClassDecl e'.cls)
  decl : Node.WithParens (.method e.decl) (.method e'.decl)
  analyzable : e.analyzable = e'.analyzable
  invokable : e.invokable = e'.invokable

/-- The same method with two entries, the second one with parentheses added. -/
def Entry.Keyed (x x' : MethodId × Entry) : Prop := x.1 = x'.1 ∧ x.2.WithParens x'.2

/-- The second catalog is the first one with parentheses added in the code of its entries. -/
structure WithParens (cat cat' : Catalog) : Prop where
  entries : List.Forall₂ Entry.Keyed cat.entries cat'.entries
  nonPublic : cat.nonPublic = cat'.nonPublic
  suppressed : cat.suppressed = cat'.suppressed
  analyzable : List.Forall₂ (Node.WithParens on .ofClassDecl) cat.analyzable cat'.analyzable

theorem any_eq_of_forall₂ {α : Type} {R : α → α → Prop} {p q : α → Bool} {l l' : List α}
    (h : List.Forall₂ R l l') (hpq : ∀ a b, R a b → p a = q b) : l.any p = l'.any q := by
  induction h with
  | nil => rfl
  | cons hab _ ih => simp only [List.any_cons, hpq _ _ hab, ih]

section Entries

variable {l l' : List (MethodId × Entry)}

theorem lookup_withParens (h : List.Forall₂ Entry.Keyed l l') (m : MethodId) :
    Option.Rel Entry.WithParens (l.lookup m) (l'.lookup m) := by
  induction h with
  | nil => exact .none
  | @cons x x' l l' hx _ ih =>
    obtain ⟨k, e⟩ := x
    obtain ⟨k', e'⟩ := x'
    obtain ⟨rfl, he⟩ := hx
    simp only [List.lookup_cons]
    split
    · exact .some he
    · exact ih

theorem firstOverrider_withParens (h : List.Forall₂ Entry.Keyed l l') (t : SymbolTable)
    (m : MethodId) (owner : ClassId) :
    SameResult (Option.Rel Entry.WithParens) (firstOverrider t m owner l)
      (firstOverrider t m owner l') := by
  induction h with
  | nil => exact .ok .none
  | @cons x x' l l' hx _ ih =>
    obtain ⟨k, e⟩ := x
    obtain ⟨k', e'⟩ := x'
    obtain ⟨rfl, he⟩ := hx
    simp only [firstOverrider]
    split
    · exact .error
    · exact .ok (.some he)
    · exact ih

end Entries

namespace WithParens

variable {cat cat' : Catalog}

theorem empty : WithParens {} {} := ⟨.nil, rfl, rfl, .nil⟩

theorem lookup? (h : cat.WithParens cat') (m : Option MethodId) :
    Option.Rel Entry.WithParens (cat.lookup? m) (cat'.lookup? m) := by
  cases m with
  | none => exact .none
  | some m => exact lookup_withParens h.entries m

theorem overrider? (h : cat.WithParens cat') (t : SymbolTable) (m : Option MethodId)
    (owner : Option ClassId) :
    SameResult (Option.Rel Entry.WithParens) (cat.overrider? t m owner)
      (cat'.overrider? t m owner) := by
  cases m with
  | none => exact .ok .none
  | some m =>
    cases owner with
    | none => exact .ok .none
    | some c =>
      refine firstOverrider_withParens (List.rel_filter (fun x x' hx => ?_) h.entries) t m c
      simp only [hx.1]

/-- A method is recorded with its entry in both catalogs. -/
theorem record (h : cat.WithParens cat') {e e' : Entry} (he : e.WithParens e') (m : MethodId) :
    (cat.record m e).WithParens (cat'.record m e') := by
  have hany : cat.entries.any (·.1 == m) = cat'.entries.any (·.1 == m) :=
    any_eq_of_forall₂ h.entries fun x x' hx => by rw [hx.1]
  unfold Catalog.record
  rw [hany]
  split
  · refine ⟨?_, h.nonPublic, h.suppressed, h.analyzable⟩
    refine List.rel_map (fun x x' hx => ?_) h.entries
    rw [hx.1]
    split
    · exact ⟨rfl, he⟩
    · exact hx
  · exact ⟨List.rel_append h.entries (.cons ⟨rfl, he⟩ .nil), h.nonPublic, h.suppressed,
      h.analyzable⟩

theorem suppress (h : cat.WithParens cat') (s : Symbol) :
    WithParens { cat with suppressed := s :: cat.suppressed }
      { cat' with suppressed := s :: cat'.suppressed } :=
  ⟨h.entries, h.nonPublic, congrArg (s :: ·) h.suppressed, h.analyzable⟩

theorem hide (h : cat.WithParens cat') (c : ClassId) :
    WithParens { cat with nonPublic := c :: cat.nonPublic }
      { cat' with nonPublic := c :: cat'.nonPublic } :=
  ⟨h.entries, congrArg (c :: ·) h.nonPublic, h.suppressed, h.analyzable⟩

end WithParens

/-! ### One class -/

namespace Builder

variable {t : SymbolTable} {module : Option ModuleId} {inside : Place} {cat cat' : Catalog}
  {d d' : ClassDecl}

theorem classify_withParens (hd : Node.WithParens (.ofClassDecl d) (.ofClassDecl d'))
    {md md' : MethodDecl} (hmd : Node.WithParens (.method md) (.method md')) (extendable : Bool)
    (m : MethodId) :
    (classify t inside extendable d md m).WithParens (classify t inside extendable d' md' m) := by
  obtain ⟨-, -, hannotations, -⟩ := hmd.method
  refine ⟨hd, hmd, ?_, rfl⟩
  simp only [classify, hannotations]

theorem addMember_withParens (h : cat.WithParens cat')
    (hd : Node.WithParens (.ofClassDecl d) (.ofClassDecl d')) (extendable : Bool) {m m' : Member}
    (hm : Node.MemberWithParens m m') :
    (addMember t inside extendable d cat m).WithParens
      (addMember t inside extendable d' cat' m') := by
  cases hm with
  | @field f f' hf =>
    obtain ⟨hsym, hannotations, -⟩ := hf.varDecl
    simp only [addMember, addField, ← hsym, ← hannotations]
    cases f.sym with
    | none => exact h
    | some v =>
      dsimp only
      split
      · exact h
      · exact h.suppress _
  | @method md md' hmd =>
    obtain ⟨-, hsym, hannotations, -⟩ := hmd.method
    simp only [addMember, addMethod, ← hsym, ← hannotations]
    cases md.sym with
    | none => exact h
    | some m =>
      refine WithParens.record ?_ (classify_withParens hd hmd extendable m) m
      split
      · exact h
      · exact h.suppress _
  | _ => exact h

theorem addClass_withParens (h : cat.WithParens cat')
    (hd : Node.WithParens (.ofClassDecl d) (.ofClassDecl d')) (c : ClassId) :
    (addClass t module inside d c cat).WithParens (addClass t module inside d' c cat') := by
  obtain ⟨_, ⟨⟩, -, -, -, -, hmembers⟩ := hd.cls
  unfold addClass
  extract_lets extendable cat₁ cat₂ cat₁' cat₂'
  have h₁ : cat₁.WithParens cat₁' := by
    unfold cat₁ cat₁'
    split
    · exact h.hide c
    · exact h
  have h₂ : cat₂.WithParens cat₂' :=
    List.rel_foldl (P := WithParens) (R := Node.WithParens on Node.ofMember)
      (fun cat cat' hcat m m' hm => addMember_withParens hcat hd extendable hm.member) h₁ hmembers
  have hstarts : (d.methods.any fun m => m.sym.any fun s =>
      (classify t inside extendable d m s).analyzable) = d'.methods.any fun m => m.sym.any fun s =>
      (classify t inside extendable d' m s).analyzable := by
    refine any_eq_of_forall₂ (Node.WithParens.methods hmembers) fun md md' hmd => ?_
    obtain ⟨-, hsym, -⟩ := hmd.method
    rw [hsym]
    exact congrArg md'.sym.any
      (funext fun s => (classify_withParens hd hmd extendable s).analyzable)
  rw [hstarts]
  split
  · exact ⟨h₂.entries, h₂.nonPublic, h₂.suppressed, List.rel_append h₂.analyzable (.cons hd .nil)⟩
  · exact h₂

/-! ### The walk -/

/-- The second walk has come as far as the first one, in a unit with parentheses added. -/
structure WithParens (b b' : Builder) : Prop where
  catalog : b.catalog.WithParens b'.catalog
  seen : b.seen = b'.seen

/-- Steps that give the same errors and related states do so one after the other. -/
theorem foldlM_sameResult {α : Type} {R : α → α → Prop}
    {f f' : Builder → α → Except BuildError Builder} {l l' : List α} (hl : List.Forall₂ R l l')
    (hf : ∀ a a' b b', a ∈ l → a' ∈ l' → R a a' → WithParens b b' →
      SameResult WithParens (f b a) (f' b' a')) {b b' : Builder} (hb : WithParens b b') :
    SameResult WithParens (l.foldlM f b) (l'.foldlM f' b') := by
  induction hl generalizing b b' with
  | nil => exact .ok hb
  | @cons a a' l l' ha _ ih =>
    have hfirst := hf a a' b b' List.mem_cons_self List.mem_cons_self ha hb
    rw [List.foldlM_cons, List.foldlM_cons]
    generalize f b a = r, f' b' a' = r' at hfirst
    cases hfirst with
    | error => exact .error
    | ok hb =>
      exact ih (fun a a' b b' h h' => hf a a' b b' (List.mem_cons_of_mem _ h)
        (List.mem_cons_of_mem _ h')) hb

variable {p : Place} {b b' : Builder}

/-- The code of a member of a class, if it has any, is that of the other one. -/
theorem codeOf_withParens {m m' : Member} (h : Node.MemberWithParens m m') :
    Option.Rel (fun x x' => x.1 = x'.1 ∧ x.2.WithParens x'.2) (codeOf m) (codeOf m') := by
  cases h with
  | @field f f' hf =>
    obtain ⟨-, hannotations, hinit⟩ := hf.varDecl
    simp only [codeOf, hannotations]
    generalize f.init = x, f'.init = x' at hinit
    cases hinit with
    | none => exact .none
    | some hx => exact .some ⟨rfl, hx⟩
  | @method md md' hmd =>
    obtain ⟨-, -, hannotations, -, hbody⟩ := hmd.method
    simp only [codeOf, hannotations]
    generalize md.body = x, md'.body = x' at hbody
    cases hbody with
    | none => exact .none
    | some hx => exact .some ⟨rfl, hx⟩
  | initializer h | nested h => exact .some ⟨rfl, h⟩
  | unknown => exact .none

/-- The walk comes to the same errors, or as far, if parentheses are added that lead to the
node. -/
def VisitedAlike (t : SymbolTable) (module : Option ModuleId) (n' : Node) : Prop :=
  ∀ (n : Node) (p : Place) (b b' : Builder), n.WithParens n' → WithParens b b' →
    SameResult WithParens (visit t module p n b) (visit t module p n' b')

theorem visitMember_withParens (h : ∀ c, (Node.ofClassDecl d').Below c → VisitedAlike t module c)
    {m m' : Member} (hmem : m' ∈ d'.members) (hm : Node.MemberWithParens m m') (inside : Place)
    (hb : WithParens b b') :
    SameResult WithParens (visitMember t module inside b m)
      (visitMember t module inside b' m') := by
  have hcode := codeOf_withParens hm
  have hbelow {as : List Annotation} {n : Node} (hn : codeOf m' = some (as, n)) :=
    below_codeOf hmem hn
  unfold visitMember
  generalize codeOf m = x, codeOf m' = x' at hcode hbelow
  cases hcode with
  | none => exact .ok hb
  | @some x x' hx =>
    dsimp only
    rw [hx.1]
    exact h _ (hbelow rfl) _ _ _ _ hx.2 hb

theorem visit_classDecl_withParens
    (h : ∀ c, (Node.ofClassDecl d').Below c → VisitedAlike t module c)
    (hd : Node.WithParens (.ofClassDecl d) (.ofClassDecl d')) (hb : WithParens b b') :
    SameResult WithParens (visit t module p (.ofClassDecl d) b)
      (visit t module p (.ofClassDecl d') b') := by
  obtain ⟨_, ⟨⟩, hid, -, hsym, hannotations, hmembers⟩ := hd.cls
  have hplace (c : ClassId) : p.enterClass t d' c = p.enterClass t d c := by
    simp only [Place.enterClass, hannotations]
  rw [visit_classDecl, visit_classDecl, ← hb.seen, ← hid, ← hsym]
  split
  · exact .ok hb
  · cases d.sym with
    | none => exact .ok ⟨hb.catalog, rfl⟩
    | some c =>
      dsimp only
      rw [hplace]
      split
      · exact .error
      · exact foldlM_sameResult hmembers
          (fun m m' b b' _ hm' hm hb => visitMember_withParens h hm' hm.member _ hb)
          ⟨addClass_withParens hb.catalog hd c, rfl⟩

theorem visit_varDecl_withParens {d d' : VarDecl}
    (h : ∀ c, (Node.ofVarDecl d').Below c → VisitedAlike t module c)
    (hd : Node.WithParens (.ofVarDecl d) (.ofVarDecl d')) (hb : WithParens b b') :
    SameResult WithParens (visit t module p (.ofVarDecl d) b)
      (visit t module p (.ofVarDecl d') b') := by
  obtain ⟨-, hannotations, hinit⟩ := hd.varDecl
  have hbelow {e : Expr} (he : d'.init = some e) : (Node.ofVarDecl d').Below (.expr e) :=
    .single (by simp [Node.children, Node.stmtChildren, he])
  rw [visit_varDecl, visit_varDecl, hannotations]
  generalize d.init = x, d'.init = x' at hinit hbelow
  cases hinit with
  | none => exact .ok hb
  | some hx => exact h _ (hbelow rfl) _ _ _ _ hx hb

/-- The walk comes to the same errors, or as far, if parentheses are added. -/
theorem visit_withParens (n' : Node) : VisitedAlike t module n' := by
  induction n' using Node.below_induct with
  | step n' ih =>
    intro n p b b' hn hb
    cases hn with
    | @paren e e' h =>
      have hvisit : visit t module p (.expr (.paren e.span (some e'))) b' =
          visit t module p (.expr e') b' :=
        (visit_other (by nofun) (by nofun) b').trans (bind_pure _)
      rw [hvisit]
      exact ih _ (.single (by simp [Node.children, Node.exprChildren])) _ _ _ _ h hb
    | same hform =>
      have hn : n.WithParens n' := .same hform
      by_cases hclass : ∃ d, n = .ofClassDecl d
      · obtain ⟨d, rfl⟩ := hclass
        obtain ⟨d', rfl, -⟩ := hn.cls
        exact visit_classDecl_withParens ih hn hb
      · by_cases hvar : ∃ d, n = .ofVarDecl d
        · obtain ⟨d, rfl⟩ := hvar
          cases hform
          exact visit_varDecl_withParens ih hn hb
        · have hclass' : ∀ d, n' ≠ .ofClassDecl d := by
            rintro d rfl
            cases hform
            exact hclass ⟨_, rfl⟩
          have hvar' : ∀ d, n' ≠ .ofVarDecl d := by
            rintro d rfl
            cases hform
            exact hvar ⟨_, rfl⟩
          rw [visit_other (fun d hd => hclass ⟨d, hd⟩) fun d hd => hvar ⟨d, hd⟩,
            visit_other hclass' hvar', hform.isKnown_eq, hform.sortText_eq]
          split
          · exact foldlM_sameResult (hform.children fun a => .refl _)
              (fun c c' b b' _ hc' hc hb => ih c' (.single hc') c p b b' hc hb) hb
          · exact .error

end Builder

end Catalog

/-- The catalogs of a unit without and with parentheses: both units have none, for the same reason,
or the second catalog is the first one with parentheses added. -/
theorem Catalog.build_withParens (t : SymbolTable) {u u' : CompilationUnit}
    (h : Node.WithParens (.file u) (.file u')) (lint : Lint) :
    SameResult Catalog.WithParens (Catalog.build t u lint) (Catalog.build t u' lint) := by
  have hcatalog {r r' : Except BuildError Builder} (hr : SameResult Builder.WithParens r r') :
      SameResult WithParens (do return (← r).catalog) (do return (← r').catalog) := by
    cases hr with
    | error => exact .error
    | ok hb => exact .ok hb.catalog
  cases h.form nofun with
  | file hclasses =>
    exact hcatalog (Builder.foldlM_sameResult hclasses
      (fun d d' b b' _ _ hd hb => Builder.visit_withParens _ _ _ _ _ hd hb) ⟨.empty, rfl⟩)

end EarlyEscape
