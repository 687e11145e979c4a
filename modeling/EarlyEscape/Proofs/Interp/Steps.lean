import EarlyEscape.Proofs.Interp.Program
import EarlyEscape.Proofs.Ref.Same

/-!
# Basic steps are programs

The steps that handle results, and the ways to interpret a part that may be absent, are put together
from basic steps.  Nothing that they do leads out of a world that is closed.

## Main definitions

* `Interp.World.Closed` : nothing that comes up leads out of the bounds of a world.
* `Interp.World.all` : the world without bounds.

## Main results

* `Interp.basic_discard`, `Interp.basic_relabel` : to remove the current result and to change it are
  basic steps.
* `Interp.program_push`, `Interp.program_takeResult`, `Interp.program_store` : results.
* `Interp.program_value`, `Interp.program_runStmt`, `Interp.program_runBlock` : parts.
-/

namespace EarlyEscape

namespace Interp

attribute [local simp] Task.node Node.children Node.exprChildren Node.stmtChildren

/-- Nothing that comes up in an interpretation leads out of the bounds of the world. -/
structure World.Closed (w : World) : Prop where
  below : ∀ n c, w.nodes n → n.Below c → w.nodes c
  entry : ∀ s e, (s, e) ∈ w.catalog.entries →
    w.nodes (.ofClassDecl e.cls) ∧ w.nodes (.method e.decl)
  named : ∀ n, w.nodes n → ∀ c ∈ n.types, w.types c
  var : ∀ v, w.types (w.table.var v).type
  owner : ∀ m, w.types (w.table.method m).owner
  elem : ∀ c, w.types (w.table.cls c).elem
  enclosing : ∀ c, w.types (w.table.enclosing? c)
  enclosingSubclass : ∀ c base, w.types (w.table.enclosingSubclass? c base)
  ind : ∀ i j : Indirections, w.inds i → j.isEmpty = false → w.inds j
  target : ∀ n, w.nodes n → ∀ v, n.Targets v → w.vars v

/-- The world of a program in which everything can come up. -/
def World.all (t : SymbolTable) (cat : Catalog) : World :=
  ⟨t, cat, fun _ => True, fun _ => True, fun _ => True, fun _ => True⟩

theorem World.all_closed (t : SymbolTable) (cat : Catalog) : (World.all t cat).Closed := by
  constructor <;> intros <;> trivial

/-! ### References inside the bounds -/

section Tracks

variable {w : World} {r r' : Ref}

theorem World.Tracks.withType {c : Option ClassId} (h : w.Tracks r) (hc : w.types c) :
    w.Tracks (r.withType c) :=
  { h with type := hc }

theorem World.Tracks.asThis (h : w.Tracks r) : w.Tracks r.asThis := { h with var := nofun }

theorem World.Tracks.asReturned (h : w.Tracks r) : w.Tracks r.asReturned := { h with var := nofun }

theorem World.Tracks.asVar (h : w.Tracks r) {v : VarId} (hv : w.vars v) : w.Tracks (r.asVar v) where
  type := h.type
  ind := h.ind
  var := by
    rintro _ ⟨⟩
    exact hv

theorem World.Closed.tracks_project (hw : w.Closed) {c : Option ClassId}
    {f : BitVec 8 → Option (BitVec 8)} (hc : w.types c) (hr : w.Tracks r)
    (h : r.project c f = some r') : w.Tracks r' := by
  simp only [Ref.project] at h
  split at h
  · cases h
  · next hne =>
    cases h
    exact ⟨hc, hw.ind _ _ hr.ind (by simpa using hne), hr.var⟩

theorem World.Closed.tracks_toIndirect (hw : w.Closed) (h : w.Tracks r)
    (hr : r.toIndirect = some r') : w.Tracks r' :=
  hw.tracks_project h.type h hr

/-- The image of a list of references under a projection to one type stays inside the bounds. -/
theorem World.Closed.tracks_filterMap (hw : w.Closed) {c : Option ClassId} (hc : w.types c)
    {f : BitVec 8 → Option (BitVec 8)} {rs : List Ref} (hrs : ∀ r ∈ rs, w.Tracks r) :
    ∀ x ∈ rs.filterMap (fun r => r.project c f), w.Tracks x := by
  intro x hx
  obtain ⟨y, hmem, hy⟩ := List.mem_filterMap.mp hx
  exact hw.tracks_project hc (hrs y hmem) hy

theorem World.Closed.declared (hw : w.Closed) {d : VarDecl} {v : VarId}
    (hd : w.nodes (.ofVarDecl d)) (hv : d.sym = some v) : w.vars v :=
  hw.target _ hd v (.declare hv)

end Tracks

/-! ### Combinations -/

section Combinations

variable {w : World} {E : Effects}

theorem Program.mono {p q : Phase} {α : Type} {x : Mode → Interp α} {V V' : α → Prop}
    (h : Program w E p x V q) (hV : ∀ a, V a → V' a) : Program w E p x V' q :=
  h.weaken (.inl rfl) (.inl rfl) hV

theorem Program.ofBusy {p q : Phase} {α : Type} {x : Mode → Interp α} {V : α → Prop}
    (h : Program w E p x V q) : Program w E p x V .busy :=
  h.weaken (.inl rfl) (.inr rfl) fun _ => id

theorem program_ite {p q : Phase} {α : Type} {x y : Mode → Interp α} {V : α → Prop} {c : Bool}
    (hx : c = true → Program w E p x V q) (hy : c = false → Program w E p y V q) :
    Program w E p (fun m => if c then x m else y m) V q := by
  cases c with
  | true => simpa using hx rfl
  | false => simpa using hy rfl

/-- Code that does the same in every mode as a program is a program. -/
theorem Program.of_eq {p q : Phase} {α : Type} {x y : Mode → Interp α} {V : α → Prop}
    (hy : Program w E p y V q) (h : ∀ m, x m = y m) : Program w E p x V q := by
  obtain rfl : x = y := funext h
  exact hy

end Combinations

/-! ### Results -/

/-- References of a world without ties are not tied. -/
theorem World.Untied.eq_of_compare {w : World} (h : w.Untied) {a b : Ref} (ha : w.Tracks a)
    (hb : w.Tracks b) (hab : Ref.compare w.table a b = .eq) : a = b := by
  rw [Ref.compare_eq] at hab
  simp only [compareLex_eq_eq, compareOn, Std.LawfulEqCmp.compare_eq_iff_eq] at hab
  obtain ⟨hkind, hdepth, hpos, htext, hind⟩ := hab
  obtain ⟨role, type, ⟨bits⟩⟩ := a
  obtain ⟨role', type', ⟨bits'⟩⟩ := b
  obtain rfl : type = type' := h.types _ _ ha.type hb.type htext
  obtain rfl : bits = bits' := BitVec.eq_of_toNat_eq hind
  obtain rfl : role = role' := by
    refine Ref.eq_of_roleKeys hkind hdepth ?_
    cases role with
    | var v =>
      cases role' with
      | var v' => rw [h.vars v v' (ha.var v rfl) (hb.var v' rfl) hpos]
      | _ => cases hkind
    | _ =>
      cases role' with
      | var v' => cases hkind
      | _ => rfl
  rfl

/-- The order of tied references matters only if there are some. -/
theorem World.Untied.sorted_eq {w : World} (h : w.Untied) {refs : RefSet}
    (hrefs : ∀ r ∈ refs, w.Tracks r) (ties ties' : TieOrder) :
    refs.sorted w.table ties = refs.sorted w.table ties' :=
  RefSet.sorted_eq_of_untied (fun a ha b hb => h.eq_of_compare (hrefs a ha) (hrefs b hb)) ties ties'

section Results

variable {w : World} {E : Effects} {p : Phase}

theorem Phase.Holds.busy {d : Int} {refs : RefSet} (h : p.Holds d refs) :
    Phase.busy.Holds d refs := by
  cases p with
  | idle => exact fun r hr k hk => Int.le_of_lt (h r hr k hk)
  | busy => exact h

/-- Without the current result, no result is left. -/
theorem idle_discardExprs {d : Int} {refs : RefSet} (h : p.Holds d refs) :
    Phase.idle.Holds d (refs.discardExprs d) := by
  intro r hr k hk
  obtain ⟨hr, hne⟩ := RefSet.mem_discardExprs.mp hr
  have hle : k ≤ d := h.busy r hr k hk
  have hkd : k ≠ d := fun h => hne (h ▸ hk)
  omega

/-- A step on references that lists none. -/
theorem Basic.program {w : World} {E : Effects} {p q : Phase} {α : Type} {V : α → Prop}
    {ordered : Bool} {f : Int → RefSet → α × RefSet} (h : Basic w E p f V q) :
    Program w E p (fun m => onRefs (w.env m) ordered f) V q :=
  .basic (fun _ => h) fun _ _ _ _ _ _ => rfl

theorem program_push {rs : List Ref} (h : ∀ r ∈ rs, w.Tracks r) :
    Program w E p (fun _ => push rs) (fun _ => True) .busy := by
  change Program w E p (fun m => onRefs (w.env m) false fun d refs =>
    ((), refs.insertAll (rs.map (·.asExpr d)))) _ _
  have hmem : ∀ {d refs r}, r ∈ RefSet.insertAll refs (rs.map (·.asExpr d)) ↔
      (∃ x ∈ rs, x.asExpr d = r) ∨ r ∈ refs := by simp
  refine Basic.program ⟨fun _ _ _ => trivial, ?_, ?_, fun _ _ r hr _ _ => hmem.mpr (.inr hr), ?_,
    ?_, fun d refs refs' extra _ h => ⟨rfl, fun r => by simp [h, or_assoc]⟩⟩
  · intro d refs hrefs r hr
    rcases hmem.mp hr with ⟨x, hx, rfl⟩ | hr
    · exact { h x hx with var := nofun }
    · exact hrefs r hr
  · intro d refs r k hk hne
    refine hmem.trans ⟨?_, .inr⟩
    rintro (⟨x, -, rfl⟩ | hr)
    · cases hk
      exact absurd rfl hne
    · exact hr
  · intro d refs r hr hkind hnew
    rcases hmem.mp hr with ⟨x, -, rfl⟩ | hr
    · exact absurd rfl hkind
    · exact absurd hr hnew
  · intro d refs hp r hr k hk
    rcases hmem.mp hr with ⟨x, -, rfl⟩ | hr
    · cases hk
      exact Int.le_refl d
    · exact hp.busy r hr k hk

/-- A step that removes the current result.  Its value is a matter of results. -/
theorem basic_discard {α : Type} {V : α → Prop} {f : Int → RefSet → α}
    (hV : ∀ d refs, (∀ r ∈ refs, w.Tracks r) → V (f d refs))
    (hf : ∀ d refs refs', (∀ r, r.kind = .expr → (r ∈ refs ↔ r ∈ refs')) →
      f d refs = f d refs') :
    Basic w E p (fun d refs => (f d refs, refs.discardExprs d)) V .idle where
  value := hV
  tracks d refs hrefs r hr := hrefs r (RefSet.mem_discardExprs.mp hr).1
  exprs d refs r k hk hne := by
    refine RefSet.mem_discardExprs.trans ⟨And.left, fun hr => ⟨hr, fun h => hne ?_⟩⟩
    rw [hk] at h
    exact Ref.Role.expr.inj h
  kept d refs r hr hkind _ :=
    RefSet.mem_discardExprs.mpr ⟨hr, fun h => hkind (Ref.kind_of_role_expr h)⟩
  added d refs r hr _ hnew := absurd (RefSet.mem_discardExprs.mp hr).1 hnew
  phase d refs hp := idle_discardExprs hp
  alike d refs refs' extra hextra h := by
    refine ⟨hf d refs refs' fun r hr => (h r).trans (or_iff_left fun hmem => ?_),
      RefSet.mem_discardExprs_or hextra.kind_ne_expr h⟩
    exact hextra.kind_ne_expr r hmem hr

theorem program_takeResult :
    Program w E p (fun m => takeResult (w.env m)) (fun rs => ∀ r ∈ rs, w.Tracks r) .idle := by
  change Program w E p (fun m => onRefs (w.env m) true fun d refs =>
    ((refs.sorted w.table m.ties).filter (RefSet.isExprAt d), refs.discardExprs d)) _ _
  refine .basic (f := fun ties d refs =>
    ((refs.sorted w.table ties).filter (RefSet.isExprAt d), refs.discardExprs d))
    (fun ties => basic_discard (fun d refs hrefs r hr => ?_) fun d refs refs' h => ?_)
    fun hw d refs hrefs ties ties' => ?_
  · exact hrefs r (RefSet.mem_sorted.mp (List.mem_filter.mp hr).1)
  · exact RefSet.filter_sorted_eq fun r hr =>
      h r (Ref.kind_of_role_expr (RefSet.isExprAt_iff.mp hr))
  · rw [hw.sorted_eq hrefs ties ties']

theorem program_dropResult : Program w E p (fun _ => dropResult) (fun _ => True) .idle := by
  change Program w E p (fun m => onRefs (w.env m) false fun d refs =>
    ((), refs.discardExprs d)) _ _
  exact Basic.program (basic_discard (fun _ _ _ => trivial) fun _ _ _ _ => rfl)

/-- Where something is dropped, there is a reference. -/
theorem exists_mem_of_size_discardExprs {refs : RefSet} {d : Int}
    (h : (refs.discardExprs d).size ≠ refs.size) : ∃ r, r ∈ refs := by
  obtain ⟨l, hl⟩ := refs
  cases l with
  | nil => exact absurd rfl h
  | cons r l => exact ⟨r, List.mem_cons_self⟩

/-- A step that drops the current result and tells whether there was one. -/
theorem program_dropTold : Program w E p
    (fun m => onRefs (w.env m) false fun d refs =>
      ((refs.discardExprs d).size != refs.size, refs.discardExprs d))
    (fun changed => changed = true → ∃ r, w.Tracks r) .idle := by
  refine Basic.program (basic_discard (fun d refs hrefs hchanged => ?_) fun d refs refs' h => ?_)
  · obtain ⟨r, hr⟩ := exists_mem_of_size_discardExprs (bne_iff_ne.mp hchanged)
    exact ⟨r, hrefs r hr⟩
  · rw [Bool.eq_iff_iff, bne_iff_ne, bne_iff_ne]
    refine not_congr ?_
    rw [RefSet.size_discardExprs_eq_iff, RefSet.size_discardExprs_eq_iff]
    exact forall_congr' fun r => ⟨fun hall hr hrole =>
      hall ((h r (Ref.kind_of_role_expr hrole)).mpr hr) hrole, fun hall hr hrole =>
      hall ((h r (Ref.kind_of_role_expr hrole)).mp hr) hrole⟩

/-- A step that records a leak at a position if there is a current result, and drops it. -/
theorem program_dropOrLeak {pos : Option Pos} (hpos : E.leaks pos) :
    Program w E p (fun _ => do
      let before := (← get).refs
      dropResult
      if (← get).refs.size != before.size then leakAt pos) (fun _ => True) .idle := by
  change Program w E p (fun m => (onRefs (w.env m) false fun d refs =>
    ((refs.discardExprs d).size != refs.size, refs.discardExprs d)) >>= fun changed =>
      if changed then leakAt pos else pure ()) _ _
  exact .bind program_dropTold fun changed hchanged =>
    program_ite (fun h => .leakAt hpos (hchanged h)) fun _ => .pure trivial

/-- A step that changes the current result.  It stays a result, or gets a role that may be given. -/
theorem basic_relabel {q : Phase} {g : Ref → Ref} (htracks : ∀ r, w.Tracks r → w.Tracks (g r))
    (hrole : ∀ r, (g r).role = r.role ∨ (g r).kind ≠ .expr ∧ E.gives (g r).role)
    (hphase : ∀ d refs, p.Holds d refs → q.Holds d (refs.replaceExprs d fun r => some (g r))) :
    Basic w E p (fun d refs => ((), refs.replaceExprs d fun r => some (g r))) (fun _ => True)
      q where
  value _ _ _ := trivial
  tracks d refs hrefs r hr := by
    rcases RefSet.mem_replaceExprs.mp hr with ⟨x, hx, -, rfl⟩ | hr
    · exact htracks x (hrefs x hx)
    · exact hrefs r hr.1
  exprs d refs r k hk hne := by
    refine RefSet.mem_replaceExprs.trans ⟨?_, fun hr => .inr ⟨hr, fun h => ?_⟩⟩
    · rintro (⟨x, -, hx, rfl⟩ | hr)
      · rcases hrole x with heq | ⟨hkind, -⟩
        · exact absurd (Ref.Role.expr.inj (hk.symm.trans (heq.trans hx))) hne
        · exact absurd (Ref.kind_of_role_expr hk) hkind
      · exact hr.1
    · exact hne (Ref.Role.expr.inj (hk.symm.trans h))
  kept d refs r hr hkind _ :=
    RefSet.mem_replaceExprs.mpr (.inr ⟨hr, fun h => hkind (Ref.kind_of_role_expr h)⟩)
  added d refs r hr hkind hnew := by
    rcases RefSet.mem_replaceExprs.mp hr with ⟨x, -, hx, rfl⟩ | hr
    · rcases hrole x with heq | ⟨-, hgives⟩
      · exact absurd (Ref.kind_of_role_expr (heq.trans hx)) hkind
      · exact hgives
    · exact absurd hr.1 hnew
  phase := hphase
  alike d refs refs' extra hextra h :=
    ⟨rfl, RefSet.mem_replaceExprs_or hextra.kind_ne_expr h⟩

theorem program_retype {c : Option ClassId} (hc : w.types c) :
    Program w E p (fun m => relabelResult (w.env m) (·.withType c)) (fun _ => True) p := by
  change Program w E p (fun m => onRefs (w.env m) true fun d refs =>
    ((), refs.replaceExprs d fun r => some (r.withType c))) _ _
  refine Basic.program (basic_relabel (fun r hr => hr.withType hc) (fun _ => .inl rfl)
    fun d refs hp => ?_)
  have hrole : ∀ r ∈ refs.replaceExprs d (fun r => some (r.withType c)),
      ∃ x ∈ refs, x.role = r.role := by
    intro r hr
    rcases RefSet.mem_replaceExprs.mp hr with ⟨x, hx, -, rfl⟩ | hr
    · exact ⟨x, hx, rfl⟩
    · exact ⟨r, hr.1, rfl⟩
  cases p <;> (
    intro r hr k hk
    obtain ⟨x, hx, hxr⟩ := hrole r hr
    exact hp x hx k (hxr.trans hk))

theorem program_store {role : Ref.Role} (h : E.gives role) (hrole : role.kind ≠ .expr)
    (hv : ∀ v, role = .var v → w.vars v) :
    Program w E p (fun m => relabelResult (w.env m) fun r => { r with role })
      (fun _ => True) .idle := by
  change Program w E p (fun m => onRefs (w.env m) true fun d refs =>
    ((), refs.replaceExprs d fun r => some { r with role })) _ _
  refine Basic.program (basic_relabel (fun r hr => { hr with var := hv }) (fun _ => .inr ⟨hrole, h⟩)
    fun d refs hp r hr k hk => ?_)
  rcases RefSet.mem_replaceExprs.mp hr with ⟨x, -, -, rfl⟩ | hr
  · exact absurd (Ref.kind_of_role_expr hk) hrole
  · exact idle_discardExprs hp r (RefSet.mem_discardExprs.mpr hr) k hk

/-- A look at the receiver or at variables that may be read. -/
theorem program_find {k : Ref.Kind} {P : Ref → Bool}
    (hk : k = .this ∨ k = .var ∧ ∀ r v, P r = true → r.role = .var v → E.reads v) :
    Program w E p (fun m => find (w.env m) k P)
      (fun rs => ∀ r ∈ rs, w.Tracks r ∧ r.kind = k) p := by
  change Program w E p (fun m => onRefs (w.env m) true fun _ refs =>
    (refs.find w.table m.ties k P, refs)) _ _
  refine .basic (f := fun ties _ refs => (refs.find w.table ties k P, refs)) (fun ties => ?_)
    fun hw d refs hrefs ties ties' => by simp only [RefSet.find, hw.sorted_eq hrefs ties ties']
  refine ⟨fun _ refs hrefs r hr => ?_, fun _ _ hrefs => hrefs, fun _ _ _ _ _ _ => Iff.rfl,
    fun _ _ _ hr _ _ => hr, fun _ _ _ hr _ hnew => absurd hr hnew, fun _ _ hp => hp,
    fun _ refs refs' extra hextra h => ⟨RefSet.find_eq fun r hr hP => ?_, h⟩⟩
  · obtain ⟨hr, hk, -⟩ := RefSet.mem_find.mp hr
    exact ⟨hrefs r hr, hk⟩
  · refine (h r).trans (or_iff_left fun hmem => ?_)
    rcases (hextra r hmem).1 with hr' | hr' | ⟨v, hv, hunread⟩
    · rw [hr.symm.trans hr'] at hk
      rcases hk with h | ⟨h, -⟩ <;> cases h
    · rw [hr.symm.trans hr'] at hk
      rcases hk with h | ⟨h, -⟩ <;> cases h
    · rcases hk with rfl | ⟨-, hreads⟩
      · simp [Ref.kind, hv, Ref.Role.kind] at hr
      · exact hunread (hreads r v hP hv)

/-- References that are no results do not matter for the phase. -/
theorem Phase.Holds.of_exprs {d : Int} {refs refs' : RefSet} (h : p.Holds d refs)
    (hr : ∀ r ∈ refs', r.kind = .expr → r ∈ refs) : p.Holds d refs' := by
  cases p <;> exact fun r hmem k hk => h r (hr r hmem (Ref.kind_of_role_expr hk)) k hk

theorem program_takeAll {k : Ref.Kind} (h : E.takes k) (hk : k ≠ .expr) :
    Program w E p (fun m => takeAll (w.env m) k)
      (fun rs => ∀ r ∈ rs, w.Tracks r ∧ r.kind = k) p := by
  change Program w E p (fun m => onRefs (w.env m) true fun _ refs =>
    refs.extract w.table m.ties k fun _ => true) _ _
  refine .basic (f := fun ties _ refs => refs.extract w.table ties k fun _ => true) (fun ties => ?_)
    fun hw d refs hrefs ties ties' => by
      simp only [RefSet.extract, RefSet.find, hw.sorted_eq hrefs ties ties']
  have hmem : ∀ {refs : RefSet} {r}, r ∈ (refs.extract w.table ties k fun _ => true).2 ↔
      r ∈ refs ∧ r.kind ≠ k := RefSet.mem_extract
  refine ⟨?_, ?_, ?_, ?_, ?_, ?_, fun _ refs refs' extra hextra h => ?_⟩
  · intro d refs hrefs r hr
    obtain ⟨hr, hk, -⟩ := RefSet.mem_find.mp hr
    exact ⟨hrefs r hr, hk⟩
  · exact fun d refs hrefs r hr => hrefs r (hmem.mp hr).1
  · intro d refs r j hj _
    refine hmem.trans ⟨And.left, fun hr => ⟨hr, fun h => hk ?_⟩⟩
    exact h.symm.trans (Ref.kind_of_role_expr hj)
  · exact fun d refs r hr _ hkept => hmem.mpr ⟨hr, fun heq => hkept (heq ▸ h)⟩
  · exact fun d refs r hr _ hnew => absurd (hmem.mp hr).1 hnew
  · exact fun d refs hp => hp.of_exprs fun r hr _ => (hmem.mp hr).1
  · have hother : ∀ r ∈ extra, r.kind ≠ k := fun r hr heq => (hextra r hr).2 (heq ▸ ‹E.takes k›)
    refine ⟨RefSet.find_eq fun r hr _ => (h r).trans (or_iff_left fun hx => hother r hx hr),
      fun r => ?_⟩
    rw [hmem, hmem, h, or_and_right]
    exact or_congr_right ⟨And.left, fun hr => ⟨hr, hother r hr⟩⟩

theorem program_add {rs : List Ref} (h : ∀ r ∈ rs, w.Tracks r ∧ E.gives r.role ∧ r.kind ≠ .expr) :
    Program w E p (fun _ => add rs) (fun _ => True) p := by
  change Program w E p (fun m => onRefs (w.env m) false fun _ refs => ((), refs.insertAll rs)) _ _
  refine Basic.program ⟨fun _ _ _ => trivial, ?_, ?_, ?_, ?_, ?_,
    fun d refs refs' extra _ h => ⟨rfl, fun r => by simp [h, or_assoc]⟩⟩
  · intro d refs hrefs r hr
    rcases RefSet.mem_insertAll.mp hr with hr | hr
    · exact (h r hr).1
    · exact hrefs r hr
  · intro d refs r k hk _
    refine RefSet.mem_insertAll.trans ⟨?_, .inr⟩
    rintro (hr | hr)
    · exact absurd (Ref.kind_of_role_expr hk) (h r hr).2.2
    · exact hr
  · exact fun d refs r hr _ _ => RefSet.mem_insertAll.mpr (.inr hr)
  · intro d refs r hr _ hnew
    rcases RefSet.mem_insertAll.mp hr with hr | hr
    · exact (h r hr).2.1
    · exact absurd hr hnew
  · refine fun d refs hp => hp.of_exprs fun r hr hkind => ?_
    rcases RefSet.mem_insertAll.mp hr with hr | hr
    · exact absurd hkind (h r hr).2.2
    · exact hr

end Results

/-! ### Parts that may be absent -/

section Parts

variable {w : World} {E : Effects}

theorem Effects.covers_child {t c : Task} (ht : t.node.runsChildren = true)
    (hc : c.node ∈ t.node.children) : (Effects.ofTask t).Covers c :=
  Effects.covers_ofTask (.single ⟨ht, hc⟩)

theorem Effects.covers_grandchild {t c : Task} {n : Node} (ht : t.node.runsChildren = true)
    (hn : n ∈ t.node.children) (hn' : n.runsChildren = true) (hc : c.node ∈ n.children) :
    (Effects.ofTask t).Covers c :=
  Effects.covers_ofTask (.tail (.single ⟨ht, hn⟩) ⟨hn', hc⟩)

/-- The effects cover an expression if there is one, whether its value is used or dropped. -/
def Effects.CoversExpr (E : Effects) (e : Option Expr) : Prop :=
  ∀ x, e = some x → ∀ t, t.node = .expr x → E.Covers t

theorem Effects.coversExpr_child {t : Task} (ht : t.node.runsChildren = true) {e : Option Expr}
    (h : ∀ x, e = some x → Node.expr x ∈ t.node.children) : (Effects.ofTask t).CoversExpr e :=
  fun x hx _ hc => Effects.covers_child ht (hc ▸ h x hx)

/-- The effects cover a statement if there is one. -/
def Effects.CoversStmt (E : Effects) (s : Option Stmt) : Prop :=
  ∀ x, s = some x → E.Covers (.stmt x)

/-- The effects cover the statements of a block if there is one. -/
def Effects.CoversBlock (E : Effects) (b : Option Block) : Prop :=
  ∀ x, b = some x → ∀ s ∈ x.stmts, E.CoversStmt s

/-- What is done for the elements of a list, one after the other, is a program that keeps the phase
if what is done for one is. -/
theorem program_forM {α : Type} {p : Phase} {f : Mode → α → Interp Unit} {l : List α}
    (h : ∀ a ∈ l, Program w E p (fun m => f m a) (fun _ => True) p) :
    Program w E p (fun m => l.forM (f m)) (fun _ => True) p := by
  induction l with
  | nil => exact .pure trivial
  | cons a l ih =>
    exact .bind (h a List.mem_cons_self) fun _ _ => ih fun b hb => h b (List.mem_cons_of_mem a hb)

theorem program_eval {e : Option Expr} (h : E.CoversExpr e) :
    Program w E .idle (fun m => eval m.walk e) (fun _ => True) .busy := by
  cases e with
  | none => exact Program.ofBusy (.pure trivial)
  | some e => exact .run (h e rfl (.expr e) rfl)

theorem program_value {e : Option Expr} (h : E.CoversExpr e) :
    Program w E .idle (fun m => value (w.env m) m.walk e) (fun rs => ∀ r ∈ rs, w.Tracks r) .idle :=
  .bind (program_eval h) fun _ _ => program_takeResult

theorem program_evalDrop {e : Option Expr} (h : E.CoversExpr e) :
    Program w E .idle (fun m => evalDrop m.walk e) (fun _ => True) .idle := by
  cases e with
  | none => exact .pure trivial
  | some e => exact .run (h e rfl (.drop e) rfl)

theorem program_runStmt {s : Option Stmt} (h : E.CoversStmt s) :
    Program w E .idle (fun m => runStmt m.walk s) (fun _ => True) .idle := by
  cases s with
  | none => exact .pure trivial
  | some s => exact .run (h s rfl)

theorem program_evalDrops {es : List (Option Expr)} (h : ∀ e ∈ es, E.CoversExpr e) :
    Program w E .idle (fun m => es.forM (evalDrop m.walk)) (fun _ => True) .idle :=
  program_forM fun e he => program_evalDrop (h e he)

theorem program_runStmts {ss : List (Option Stmt)} (h : ∀ s ∈ ss, E.CoversStmt s) :
    Program w E .idle (fun m => ss.forM (runStmt m.walk)) (fun _ => True) .idle :=
  program_forM fun s hs => program_runStmt (h s hs)

theorem program_runBlock {p : Phase} {b : Option Block} (h : E.CoversBlock b) :
    Program w E p (fun m => runBlock m.walk b) (fun _ => True) p := by
  cases b with
  | none => exact .pure trivial
  | some b => exact .scope (program_runStmts (h b rfl))

end Parts

end Interp

end EarlyEscape
