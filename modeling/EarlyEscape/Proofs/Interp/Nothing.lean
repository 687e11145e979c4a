import EarlyEscape.Proofs.Interp.Loops

/-!
# Nothing comes of nothing

Code that starts without any reference never gets one: calls have nothing to pass on, so that none
is entered, functions capture nothing, and no leak is recorded.  An interpretation from the empty
set therefore changes nothing at all.  It always comes to its end, as its loops take one pass and
there are no calls inside.

## Main definitions

* `Interp.World.barren` : the world of a program without references.
* `Interp.Still` : a run changes nothing; if it ends early, it has recorded nothing.
* `Interp.invokeAlways` : a call that is entered even if there are no references to pass on.

## Main results

* `Interp.Program.still` : all programs of the barren world are still.
* `Interp.exec_still` : so is every piece of a program without references.
* `Interp.not_diverges_of_empty` : it comes to its end.
* `Interp.exec_of_empty` : both, together with the call of a method that starts without references.
-/

namespace EarlyEscape.Interp

/-- The world of a program in which there are no references. -/
def World.barren (t : SymbolTable) (cat : Catalog) : World :=
  { World.all t cat with inds := fun _ => False }

section Barren

variable {t : SymbolTable} {cat : Catalog}

theorem World.barren_closed (t : SymbolTable) (cat : Catalog) : (World.barren t cat).Closed where
  below _ _ _ _ := trivial
  entry _ _ _ := ⟨trivial, trivial⟩
  named _ _ _ _ := trivial
  var _ := trivial
  owner _ := trivial
  elem _ := trivial
  enclosing _ := trivial
  enclosingSubclass _ _ := trivial
  ind _ _ hi _ := hi
  target _ _ _ _ := trivial

theorem World.not_tracks_barren (r : Ref) : ¬(World.barren t cat).Tracks r := fun h => h.ind

theorem World.tracked_barren_iff {s : State} :
    (World.barren t cat).Tracked s ↔ s.refs = .empty := by
  rw [RefSet.eq_empty_iff]
  exact forall₂_congr fun r _ => iff_false_intro (World.not_tracks_barren r)

end Barren

/-! ### Still runs -/

/-- The run from the state `s` changes nothing.  If it ends early, then still without references,
and it has recorded nothing. -/
def Still {α : Type} (s : State) : EStateM.Result Stop State α → Prop
  | .ok _ s' => s' = s
  | .error _ s' => s'.refs = .empty ∧ s'.pending = s.pending ∧ s'.log = s.log

section Still

variable {α β : Type} {s : State}

theorem State.eq_of_empty {refs : RefSet} (hs : s.refs = .empty) (h : ∀ r, r ∉ refs) :
    { s with refs } = s := by
  rw [RefSet.eq_empty_iff.mpr h, ← hs]

theorem isListable_empty (t : SymbolTable) : RefSet.empty.isListable t = true := rfl

theorem bind_still {x : Interp α} {f : α → Interp β} (hx : Still s (x s))
    (hf : ∀ a, x s = .ok a s → Still s (f a s)) : Still s ((x >>= f) s) := by
  rw [bind_apply]
  cases hrun : x s with
  | error e s₁ =>
    rw [hrun] at hx
    exact hx
  | ok a s₁ =>
    rw [hrun] at hx
    obtain rfl : s₁ = s := hx
    exact hf a hrun

theorem dropResult_still (hs : s.refs = .empty) : dropResult s = .ok () s := by
  change EStateM.Result.ok () { s with refs := s.refs.discardExprs s.depth } = .ok () s
  rw [State.eq_of_empty hs fun r hr => ?_]
  exact RefSet.eq_empty_iff.mp hs r (RefSet.mem_discardExprs.mp hr).1

theorem promoteResult_still (env : Env) (hs : s.refs = .empty) :
    promoteResult env s = .ok () s := by
  refine promoteResult_eq_ok.mpr
    ⟨hs ▸ isListable_empty env.table, (State.eq_of_empty hs fun r hr => ?_).symm⟩
  rcases RefSet.mem_replaceExprs.mp hr with ⟨x, hx, -⟩ | ⟨hr, -⟩
  · exact RefSet.eq_empty_iff.mp hs x hx
  · exact RefSet.eq_empty_iff.mp hs r hr

/-- A scope is still if its body is. -/
theorem inScope_still {leave body : Interp Unit}
    (hbody : Still { s with depth := s.depth + 1 } (body { s with depth := s.depth + 1 }))
    (hleave : leave { s with depth := s.depth + 1 } = .ok () { s with depth := s.depth + 1 }) :
    Still s (inScope leave body s) := by
  rw [inScope_apply]
  cases hrun : body { s with depth := s.depth + 1 } with
  | error e s₁ =>
    rw [hrun] at hbody
    exact hbody
  | ok _ s₁ =>
    rw [hrun] at hbody
    obtain rfl : s₁ = { s with depth := s.depth + 1 } := hbody
    simp only [hleave]
    change { s with depth := s.depth + 1 - 1 } = s
    rw [Int.add_sub_cancel]

theorem deferred_still {env : Env} {type : Option ClassId} {code : Interp Unit}
    (hs : s.refs = .empty) (hcode : Still s.deferring (code s.deferring)) :
    Still s (deferred env type code s) := by
  rw [deferred_apply]
  cases hrun : code s.deferring with
  | error e s₁ =>
    rw [hrun] at hcode
    exact hcode
  | ok _ s₁ =>
    rw [hrun] at hcode
    obtain rfl : s₁ = s.deferring := hcode
    have hcaptured : s.deferring.captured s.refs type = s.refs := by
      have hnone : s.deferring.refs.toList = [] := congrArg RefSet.toList hs
      rw [State.captured, hnone]
      rfl
    dsimp only
    rw [if_pos (show s.deferring.refs.isListable env.table = true from hs ▸ rfl)]
    change s.resumed s.deferring type = s
    rw [State.resumed, hcaptured]
    rfl

theorem check_still {env : Env} {stmt : Stmt} (hs : s.refs = .empty) :
    checkLeftovers env stmt s = .ok () s := by
  have hnone : s.leftover? env = none := by
    refine List.find?_eq_none.mpr fun r hr => ?_
    exact absurd (RefSet.mem_sorted.mp hr) (RefSet.eq_empty_iff.mp hs r)
  have hlist : s.refs.isListable env.table = true := hs ▸ isListable_empty env.table
  exact checkLeftovers_eq_ok.mpr ⟨rfl, fun _ => ⟨hlist, hnone⟩⟩

/-- The passes of a loop are still if one pass is: there is one pass only. -/
theorem repeated_still {body : Interp Unit} (hs : s.refs = .empty) (hbody : Still s (body s))
    (n : Nat) : Still s (repeated body n s) := by
  cases n with
  | zero => exact ⟨hs, rfl, rfl⟩
  | succ n =>
    rw [repeated_apply]
    cases hrun : body s with
    | error e s₁ =>
      rw [hrun] at hbody
      exact hbody
    | ok _ s₁ =>
      rw [hrun] at hbody
      obtain rfl : s₁ = s := hbody
      simp only [RefSet.sameAs_self, if_true]
      rfl

end Still

/-! ### Programs without references -/

section Programs

variable {t : SymbolTable} {cat : Catalog} {m : Mode}

/-- Without references, a program is still if the pieces inside are.  No call is entered, since a
call takes a reference to pass on. -/
theorem Program.still {E : Effects} {p q : Phase} {α : Type} {x : Mode → Interp α} {V : α → Prop}
    (h : Program (World.barren t cat) E p x V q) (hE : E.Within (World.barren t cat))
    (hm : m.Lawful (World.barren t cat))
    (hwalk : ∀ task s, s.refs = .empty → Still s (m.walk task s)) :
    ∀ s, s.refs = .empty → Still s (x m s) := by
  induction h with
  | pure => exact fun _ _ => rfl
  | bind hx _ ihx ihf =>
    intro s hs
    refine bind_still (ihx hE s hs) fun a hrun => ?_
    exact ihf a (hx.lawful hm hE s a s (World.tracked_barren_iff.mpr hs) hrun).1 hE s hs
  | weaken _ _ _ _ ih => exact ih hE
  | run => exact hwalk _
  | stop => exact fun s hs => ⟨hs, rfl, rfl⟩
  | ask _ ih => exact fun s hs => ih s.methodClass hE s hs
  | basic hf =>
    intro s hs
    change Still s (onRefs _ _ _ s)
    rw [onRefs_apply]
    split
    · exact ⟨hs, rfl, rfl⟩
    · refine State.eq_of_empty hs fun r hr => ?_
      exact World.not_tracks_barren r
        ((hf m.ties).tracks _ _ (World.tracked_barren_iff.mpr hs) r hr)
  | leakAt _ hr =>
    obtain ⟨r, hr⟩ := hr
    exact absurd hr (World.not_tracks_barren r)
  | scope _ ih =>
    exact fun s hs => inScope_still (ih hE { s with depth := s.depth + 1 } hs) (dropResult_still hs)
  | promote _ ih =>
    exact fun s hs =>
      inScope_still (ih hE { s with depth := s.depth + 1 } hs) (promoteResult_still _ hs)
  | call _ _ _ _ hseed hne =>
    obtain ⟨r, hr⟩ := RefSet.exists_mem_of_isEmpty hne
    exact absurd (hseed r hr).1 (World.not_tracks_barren r)
  | visit _ _ _ hseed hne =>
    obtain ⟨r, hr⟩ := RefSet.exists_mem_of_isEmpty hne
    exact absurd (hseed r hr).1 (World.not_tracks_barren r)
  | deferred _ _ _ ih => exact fun s hs => deferred_still hs (ih hE.deferred s.deferring hs)
  | check =>
    intro s hs
    change Still s (checkLeftovers _ _ s)
    rw [check_still hs]
    rfl

end Programs

section Exec

variable (env : Env)

/-- Every piece of a program is still without references. -/
theorem exec_still (n : Nat) (task : Task) (s : State) (hs : s.refs = .empty) :
    Still s (exec env n task s) := by
  let w := World.barren env.table env.catalog
  have hw : w.Closed := World.barren_closed env.table env.catalog
  induction n generalizing task s with
  | zero => exact ⟨hs, rfl, rfl⟩
  | succ n ih =>
    have hE : (Effects.ofTask task).Within w := Effects.within_ofTask hw trivial
    have hlawful := exec_lawful hw env.checked env.guard env.ties n
    by_cases hloop : ∃ stmt, task = .loop stmt
    · obtain ⟨stmt, rfl⟩ := hloop
      let inner : State := { s with depth := s.depth + 1 }
      have hpass := (program_loopPass hw stmt trivial).still hE hlawful ih inner hs
      exact inScope_still (repeated_still (s := inner) hs hpass n)
        (dropResult_still (s := inner) hs)
    · exact (program_step hw (fun stmt h => hloop ⟨stmt, h⟩) trivial).still hE hlawful ih s hs

/-- Without references, the states in which the pieces inside start have none, and no calls are
entered. -/
theorem steady_barren (n : Nat) (running : List (DeclId × RefSet)) :
    Steady (World.barren env.table env.catalog)
      ((World.barren env.table env.catalog).mode env.checked env.guard env.ties n)
      fun _ s => s.refs = .empty ∧ s.running = running where
  of_idle _ _ h := h
  program hx hE s a s' _ h hrun := by
    have hlawful :=
      exec_lawful (World.barren_closed env.table env.catalog) env.checked env.guard env.ties n
    have hstill := hx.still hE hlawful (exec_still env n) s h.1
    rw [hrun] at hstill
    obtain rfl : s' = s := hstill
    exact h
  deeper _ _ h := h
  deferring _ _ _ h := h
  called _ _ _ _ _ _ _ _ _ hseed hne := by
    obtain ⟨r, hr⟩ := RefSet.exists_mem_of_isEmpty hne
    exact absurd (hseed r hr).1 (World.not_tracks_barren r)

/-- Without references, every piece of a program comes to its end: what it comes to is smaller, and
loops take one pass. -/
theorem not_diverges_of_empty (task : Task) (s : State) (hs : s.refs = .empty) :
    ¬Diverges env task s := by
  intro hdiv
  let w := World.barren env.table env.catalog
  have hw : w.Closed := World.barren_closed env.table env.catalog
  have htracked : w.Tracked s := World.tracked_barren_iff.mpr hs
  rcases exists_diverges_inside (w := w) hw trivial htracked hdiv with
    ⟨t', s', hinner, hdiv', hcalls⟩ | ⟨stmt, rfl, trace, hstart, hturns⟩
  · obtain ⟨-, -, hs', hrunning⟩ := hcalls.steady hw (fun n => steady_barren env n s.running)
      trivial htracked ⟨hs, rfl⟩
    have hlt : t'.size < task.size := by
      rcases hinner.size_lt with ⟨-, hlt⟩ | hlt
      · exact hlt
      · rw [hrunning] at hlt
        exact absurd hlt (Nat.lt_irrefl _)
    exact not_diverges_of_empty t' s' hs' hdiv'
  · obtain ⟨⟨n, hrun⟩, hchanged⟩ := hturns 0
    have hempty : (trace 0).refs = .empty := by rw [hstart]; exact hs
    have hpass := (program_loopPass hw stmt trivial).still (Effects.within_ofTask hw trivial)
      (exec_lawful hw env.checked env.guard env.ties n) (exec_still env n) (trace 0) hempty
    have hsame : trace 1 = trace 0 := by
      have hrun : loopPass env (exec env n) stmt (trace 0) = .ok () (trace 1) := hrun
      change Still (trace 0) (loopPass env (exec env n) stmt (trace 0)) at hpass
      rw [hrun] at hpass
      exact hpass
    rw [hsame, RefSet.sameAs_self] at hchanged
    cases hchanged
termination_by task.size

end Exec

/-! ### Calls without references -/

/-- A call of a known method that is simulated even if there is no reference to pass on. -/
def invokeAlways (env : Env) (walk : Walk) (site : Site) (args : List (Option Expr))
    (receiver : List Ref) (entry : Catalog.Entry) (body : Block) : Interp Unit := do
  let seed ← bindArgs env walk args entry.decl.params (.ofList receiver)
  let returned ← enter env site.pos entry.decl.id entry.cls.sym seed (runMethod env walk entry body)
  push returned

section Calls

variable {env : Env} {n : Nat} {site : Option Pos} {e : Catalog.Entry} {body : Block} {s : State}

/-- Code of a call is still without references. -/
theorem Program.still_of_empty {nodes : Node → Prop} {p q : Phase} {x : Mode → Interp Unit}
    (h : Program (World.barren env.table env.catalog) (.inside nodes) p x (fun _ => True) q)
    (hs : s.refs = .empty) :
    Still s (x ((World.barren env.table env.catalog).mode env.checked env.guard env.ties n) s) :=
  h.still (Effects.within_inside fun _ _ => trivial)
    (exec_lawful (World.barren_closed env.table env.catalog) env.checked env.guard env.ties n)
    (exec_still env n) s hs

theorem runMethod_still (hs : s.refs = .empty) :
    Still s (runMethod env (exec env n) e body s) :=
  (program_runMethod (w := World.barren env.table env.catalog)).still_of_empty hs

theorem runBlock_still (hs : s.refs = .empty) : Still s (runBlock (exec env n) (some body) s) := by
  have hprogram : Program (World.barren env.table env.catalog) (.inside fun _ => True) .idle
      (fun m => runBlock m.walk (some body)) (fun _ => True) .idle :=
    program_block fun _ _ => trivial
  exact hprogram.still_of_empty hs

/-- The code of a method comes to its end without references. -/
theorem exists_runMethod_ends (env : Env) (e : Catalog.Entry) (body : Block)
    (hs : s.refs = .empty) : ∃ n, ¬Exhausts (runMethod env (exec env n) e body s) := by
  by_contra hnone
  let w := World.barren env.table env.catalog
  obtain ⟨t, s', -, hs', hdiv, -⟩ := (program_runMethod (w := w)).exists_stalls
    (World.barren_closed env.table env.catalog) (Effects.within_inside fun _ _ => trivial) s
    (World.tracked_barren_iff.mpr hs) fun n => not_not.mp (not_exists.mp hnone n)
  exact not_diverges_of_empty env t s' (World.tracked_barren_iff.mp hs') hdiv

/-- A call that starts without references returns nothing, and it changes nothing but the log, where
it may have been noted as left out. -/
theorem enter_still {rs : List Ref} {s' : State}
    (h : enter env site e.decl.id e.cls.sym .empty (runMethod env (exec env n) e body) s =
      .ok rs s') : rs = [] ∧ ∃ log, s = { s' with log } := by
  rcases enter_eq_ok.mp h with ⟨-, rfl, rfl⟩ | ⟨pos, s₁, rfl, -, hbody, -, rfl, rfl⟩
  · exact ⟨rfl, s.log, rfl⟩
  · have hstill : Still (s.called pos e.decl.id e.cls.sym .empty)
        (runMethod env (exec env n) e body (s.called pos e.decl.id e.cls.sym .empty)) :=
      runMethod_still rfl
    rw [hbody] at hstill
    obtain rfl : s₁ = s.called pos e.decl.id e.cls.sym .empty := hstill
    exact ⟨rfl, s.log, rfl⟩

/-- A call that starts without references records no leak, also if it ends early. -/
theorem enter_error_still {stop : Stop} {s' : State}
    (h : enter env site e.decl.id e.cls.sym .empty (runMethod env (exec env n) e body) s =
      .error stop s') : s'.pending = s.pending := by
  rw [enter_apply] at h
  split at h
  · cases h
  cases site with
  | none =>
    cases h
    rfl
  | some pos =>
    have hstill : Still (s.called pos e.decl.id e.cls.sym .empty)
        (runMethod env (exec env n) e body (s.called pos e.decl.id e.cls.sym .empty)) :=
      runMethod_still rfl
    cases hrun : runMethod env (exec env n) e body (s.called pos e.decl.id e.cls.sym .empty) with
    | error stop' s₁ =>
      rw [hrun] at hstill
      simp only [hrun] at h
      cases h
      exact hstill.2.1
    | ok _ s₁ =>
      rw [hrun] at hstill
      obtain rfl : s₁ = s.called pos e.decl.id e.cls.sym .empty := hstill
      simp only [hrun] at h
      split at h <;> cases h
      rfl

/-- To enter calls without references as well changes nothing but the log. -/
theorem invokeKnown_of_invokeAlways {site : Site} {args : List (Option Expr)} {receiver : List Ref}
    {s' : State} (h : invokeAlways env (exec env n) site args receiver e body s = .ok () s') :
    ∃ log, invokeKnown env (exec env n) site args receiver e body s = .ok () { s' with log } := by
  obtain ⟨seed, s₁, hargs, hcall⟩ := bind_eq_ok.mp h
  have hknown : invokeKnown env (exec env n) site args receiver e body s = _ := bind_ok hargs
  rw [hknown]
  cases hempty : seed.isEmpty with
  | false => exact ⟨s'.log, hcall⟩
  | true =>
    obtain rfl : seed = .empty := RefSet.ext (List.isEmpty_iff.mp hempty)
    obtain ⟨rs, s₂, henter, hpush⟩ := bind_eq_ok.mp hcall
    obtain ⟨rfl, log, rfl⟩ := enter_still henter
    cases hpush
    exact ⟨log, rfl⟩

end Calls

/-! ### The empty set -/

/-- From a state without references, every statement and expression comes to its end: it changes
nothing, or it ends early without a leak and still without references.  The code of a call that
starts without references comes to its end likewise and returns nothing, so that it makes no
difference, but for notes in the log, that such calls are left out. -/
theorem exec_of_empty (env : Env) :
    (∀ (task : Task) (s : State), s.refs = .empty →
      (∀ fuel s', exec env fuel task s = .ok () s' → s' = s) ∧
      (∀ fuel e s', exec env fuel task s = .error e s' →
        s'.refs = .empty ∧ s'.pending = s.pending) ∧
      ∃ bound, ∀ fuel, bound ≤ fuel → ¬Exhausts (exec env fuel task s)) ∧
    ∀ (e : Catalog.Entry) (body : Block) (s : State),
      (∀ fuel site rs s', enter env site e.decl.id e.cls.sym .empty
        (runMethod env (exec env fuel) e body) s = .ok rs s' →
        rs = [] ∧ ∃ log, s = { s' with log }) ∧
      (∀ fuel site stop s', enter env site e.decl.id e.cls.sym .empty
        (runMethod env (exec env fuel) e body) s = .error stop s' → s'.pending = s.pending) ∧
      (∀ site, ∃ fuel, ¬Exhausts (enter env site e.decl.id e.cls.sym .empty
        (runMethod env (exec env fuel) e body) s)) ∧
      ∀ fuel site args receiver s',
        invokeAlways env (exec env fuel) site args receiver e body s = .ok () s' →
        ∃ log, invokeKnown env (exec env fuel) site args receiver e body s =
          .ok () { s' with log } := by
  refine ⟨fun task s hs => ⟨fun fuel s' hrun => ?_, fun fuel e s' hrun => ?_, ?_⟩,
    fun e body s => ⟨fun fuel site rs s' => enter_still, fun fuel site stop s' => enter_error_still,
      fun site => ?_, fun fuel site args receiver s' => invokeKnown_of_invokeAlways⟩⟩
  · have hstill := exec_still env fuel task s hs
    rw [hrun] at hstill
    exact hstill
  · have hstill := exec_still env fuel task s hs
    rw [hrun] at hstill
    exact ⟨hstill.1, hstill.2.1⟩
  · obtain ⟨bound, hend⟩ := not_forall.mp (not_diverges_of_empty env task s hs)
    exact ⟨bound, fun fuel hfuel h => hend (exhausts_of_approx (exec_mono _ hfuel task s) h)⟩
  · cases site with
    | none =>
      refine ⟨0, fun h => ?_⟩
      obtain ⟨pos, hpos, -⟩ := exhausts_enter h
      cases hpos
    | some pos =>
      obtain ⟨fuel, hend⟩ := exists_runMethod_ends env e body
        (s := s.called pos e.decl.id e.cls.sym .empty) rfl
      refine ⟨fuel, fun h => hend ?_⟩
      obtain ⟨_, ⟨⟩, -, hbody⟩ := exhausts_enter h
      exact hbody

/-- The statement `throw this;`. -/
def throwThis : Stmt := .throwStmt default (some (.ident default "this" none))

/-- The statement leaks the receiver, but only if there is one. -/
theorem exec_of_empty_throw :
    (∃ s', exec { table := {}, catalog := {} } 2 (.stmt throwThis) (.start none) = .ok () s' ∧
      s'.pending = some [0]) ∧
    ∃ s', exec { table := {}, catalog := {} } 2 (.stmt throwThis)
        { State.start none with refs := .empty } = .ok () s' ∧
      s' = { State.start none with refs := .empty } := by
  refine ⟨⟨_, rfl, rfl⟩, _, rfl, ?_⟩
  have hempty := (exec_of_empty { table := {}, catalog := {} }).1 (.stmt throwThis)
    { State.start none with refs := .empty } rfl
  exact hempty.1 2 _ rfl

end EarlyEscape.Interp
