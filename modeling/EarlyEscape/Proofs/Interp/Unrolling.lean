import EarlyEscape.Proofs.Interp.Similar
import EarlyEscape.Proofs.Interp.Ties

/-!
# Loops and their unrollings

A loop is interpreted until a pass leaves the set of references as it was.  What a pass does depends
on the references as a set, on the order in which references come that the listing order ties, and
on the place of the running code, but not on a leak that has been recorded.  As long as tied
references keep their order, all passes after the one that changed nothing would therefore change
nothing either, and the result of a loop stands for any number of passes.

## Main definitions

* `Interp.iterated` : a number of passes, one after the other.
* `Interp.Unrolls` : the state after so many passes of a loop.
* `Interp.UnrollsBy` : a state after so many passes with any orders of tied references.

## Main results

* `Interp.exists_last_pass` : a loop that comes to its end ends with a pass that changes nothing.
* `Interp.loop_stands_for_unrollings` : a loop holds the receivers, the values of variables and the
  returned values of all its unrollings, and leaks exactly if one of them does.
* `Interp.namesakes_hide_unrolling` : it need not if tied references come in another order in each
  pass.
-/

namespace EarlyEscape.Interp

/-! ### Passes of a loop -/

section Passes

variable {body : Interp Unit} {s s' s₁ : State} {n k : Nat}

/-- A number of passes, one after the other. -/
def iterated (body : Interp Unit) : Nat → Interp Unit
  | 0 => pure ()
  | n + 1 => do
    body
    iterated body n

theorem iterated_succ_eq_ok {u : Unit} :
    iterated body (n + 1) s = .ok u s' ↔
      ∃ s₁, body s = .ok () s₁ ∧ iterated body n s₁ = .ok u s' := by
  refine bind_eq_ok.trans ⟨?_, fun ⟨s₁, h, h'⟩ => ⟨(), s₁, h, h'⟩⟩
  rintro ⟨⟨⟩, s₁, h, h'⟩
  exact ⟨s₁, h, h'⟩

theorem iterated_add_eq_ok {u : Unit} :
    iterated body (n + k) s = .ok u s' ↔
      ∃ s₁, iterated body n s = .ok () s₁ ∧ iterated body k s₁ = .ok u s' := by
  induction n generalizing s with
  | zero =>
    rw [Nat.zero_add]
    refine ⟨fun h => ⟨s, rfl, h⟩, ?_⟩
    rintro ⟨_, ⟨⟩, h⟩
    exact h
  | succ n ih =>
    rw [Nat.succ_add, iterated_succ_eq_ok]
    simp only [ih, iterated_succ_eq_ok]
    constructor
    · rintro ⟨s₂, hpass, s₁, hn, hk⟩
      exact ⟨s₁, ⟨s₂, hpass, hn⟩, hk⟩
    · rintro ⟨s₁, ⟨s₂, hpass, hn⟩, hk⟩
      exact ⟨s₂, hpass, s₁, hn, hk⟩

/-- A loop that comes to its end has taken a number of passes, the last of which left the set of
references as it was. -/
theorem exists_last_pass (h : repeated body n s = .ok () s') :
    ∃ k s₁, iterated body k s = .ok () s₁ ∧ body s₁ = .ok () s' ∧
      ∀ r, r ∈ s₁.refs ↔ r ∈ s'.refs := by
  induction n generalizing s with
  | zero => cases h
  | succ n ih =>
    obtain ⟨s₁, hpass, ⟨hsame, rfl⟩ | ⟨-, hrest⟩⟩ := repeated_eq_ok.mp h
    · exact ⟨0, s, rfl, hpass, fun r => (RefSet.sameAs_iff.mp hsame r).symm⟩
    · obtain ⟨k, s₂, hk, hlast, hrefs⟩ := ih hrest
      exact ⟨k + 1, s₂, iterated_succ_eq_ok.mpr ⟨s₁, hpass, hk⟩, hlast, hrefs⟩

/-- After a pass that led to a similar state, all passes lead to similar states. -/
theorem exists_iterated_similar {leaked : Bool}
    (hbody : ∀ s s', Similar leaked .empty s s' → SimilarEnds leaked .empty s s' body body)
    (hpass : body s = .ok () s₁) (hsim : Similar leaked .empty s s₁) (n : Nat) :
    ∃ s', iterated body n s₁ = .ok () s' ∧ Similar leaked .empty s s' := by
  suffices h : ∀ t, Similar leaked .empty s t →
      ∃ s', iterated body n t = .ok () s' ∧ Similar leaked .empty s s' from h s₁ hsim
  induction n with
  | zero => exact fun t ht => ⟨t, rfl, ht⟩
  | succ n ih =>
    intro t ht
    obtain ⟨t₁, hpass₁, hsim₁⟩ := hbody s t ht () s₁ hpass
    obtain ⟨s', hn, hsim'⟩ := ih t₁ (hsim.trans hsim₁ id)
    exact ⟨s', iterated_succ_eq_ok.mpr ⟨t₁, hpass₁, hn⟩, hsim'⟩

/-- Passes one after the other, each of which may be another one. -/
def inTurn : List (Interp Unit) → Interp Unit
  | [] => pure ()
  | pass :: passes => do
    pass
    inTurn passes

theorem inTurn_replicate (body : Interp Unit) (n : Nat) :
    inTurn (List.replicate n body) = iterated body n := by
  induction n with
  | zero => rfl
  | succ n ih => simp only [List.replicate_succ, inTurn, iterated, ih]

/-- Passes that do the same are a number of passes of one loop. -/
theorem inTurn_eq {I : State → Prop} (hI : ∀ s s', I s → body s = .ok () s' → I s')
    {passes : List (Interp Unit)} (h : ∀ pass ∈ passes, ∀ s, I s → pass s = body s) :
    ∀ s, I s → inTurn passes s = iterated body passes.length s := by
  induction passes with
  | nil => exact fun _ _ => rfl
  | cons pass passes ih =>
    intro s hs
    have hpass := h pass List.mem_cons_self s hs
    have hrest := ih fun pass hmem => h pass (List.mem_cons_of_mem _ hmem)
    change (pass >>= fun _ => inTurn passes) s =
      (body >>= fun _ => iterated body passes.length) s
    rw [bind_apply, bind_apply, hpass]
    cases hrun : body s with
    | ok _ s₁ => exact hrest s₁ (hI s s₁ hs hrun)
    | error => rfl

end Passes

/-! ### Unrollings -/

section Unrollings

variable {env : Env} {stmt : Stmt} {s s' : State}

/-- The state `s'` is that after `n` passes of the loop, in its own scope, from the state `s`. -/
def Unrolls (env : Env) (stmt : Stmt) (n : Nat) (s s' : State) : Prop :=
  ∃ fuel, iterated (loopPass env (exec env fuel) stmt) n { s with depth := s.depth + 1 } =
    .ok () s'

/-- The state `s'` can be that after `n` passes of the loop, in its own scope, from the state `s`,
if each pass picks the orders of tied references anew. -/
def UnrollsBy (env : Env) (stmt : Stmt) (n : Nat) (s s' : State) : Prop :=
  ∃ fuel passes, passes.length = n ∧ (∀ pass ∈ passes, IsPass env (Varies env fuel) stmt pass) ∧
    inTurn passes { s with depth := s.depth + 1 } = .ok () s'

/-- The statement is interpreted as passes and nothing else: a while loop, a do loop or a loop over
the elements of a value. -/
def IsPassLoop : Stmt → Prop
  | .whileLoop .. => True
  | .doLoop .. => True
  | .forEach .. => True
  | _ => False

/-- A number of passes is put together from basic steps. -/
theorem program_iterated {w : World} (hw : w.Closed) (hn : w.nodes (.stmt stmt)) (n : Nat) :
    Program w (.ofTask (.loop stmt)) .idle
      (fun m => iterated (loopPass (w.env m) m.walk stmt) n) (fun _ => True) .idle := by
  induction n with
  | zero => exact .pure trivial
  | succ n ih => exact .bind (program_loopPass hw stmt hn) fun _ _ => ih

/-- The passes of a loop respect its frame. -/
theorem iterated_frame (env : Env) (fuel n : Nat) (stmt : Stmt)
    (h : iterated (loopPass env (exec env fuel) stmt) n s = .ok () s') :
    Frame (.ofTask (.loop stmt)) s s' := by
  have hw := World.all_closed env.table env.catalog
  exact ((program_iterated hw trivial n : Program (World.all env.table env.catalog) _ _
    (fun m => iterated (loopPass (World.env _ m) m.walk stmt) n) _ _).of_run h).2

/-- There is one state after a number of passes. -/
theorem Unrolls.unique {n : Nat} {s₁ s₂ : State} (h₁ : Unrolls env stmt n s s₁)
    (h₂ : Unrolls env stmt n s s₂) : s₁ = s₂ := by
  obtain ⟨fuel₁, h₁⟩ := h₁
  obtain ⟨fuel₂, h₂⟩ := h₂
  have hw := World.all_closed env.table env.catalog
  have hpasses : Program (World.all env.table env.catalog) (.ofTask (.loop stmt)) .idle
      (fun m => iterated (loopPass (World.env _ m) m.walk stmt) n) (fun _ => True) .idle :=
    program_iterated hw trivial n
  have hmore {fuel : Nat} {t : State} (hle : fuel ≤ max fuel₁ fuel₂)
      (h : iterated (loopPass env (exec env fuel) stmt) n { s with depth := s.depth + 1 } =
        .ok () t) :
      iterated (loopPass env (exec env (max fuel₁ fuel₂)) stmt) n
        { s with depth := s.depth + 1 } = .ok () t :=
    hpasses.run_of_le hw (Effects.within_ofTask hw trivial) hle (World.all_tracked _) h
  cases (hmore (Nat.le_max_left fuel₁ fuel₂) h₁).symm.trans
    (hmore (Nat.le_max_right fuel₁ fuel₂) h₂)
  rfl

/-- A pass leads from similar states to similar states. -/
theorem loopPass_similar {leaked : Bool} (env : Env) (fuel : Nat) (stmt : Stmt)
    (h : Similar leaked .empty s s') :
    SimilarEnds leaked .empty s s' (loopPass env (exec env fuel) stmt)
      (loopPass env (exec env fuel) stmt) := by
  have hw := World.all_closed env.table env.catalog
  exact (program_loopPass hw stmt trivial).similar (exec_forgets fuel fuel) leaked .empty s s'
    (Nat.le_refl fuel) (Effects.ignores_empty _) h

/-- What is held and recorded after `n` passes is so after the last pass of a loop that comes to
its end, whether the `n` passes end before it or go on after it. -/
theorem exists_iterated_le {fuel k : Nat}
    (h : repeated (loopPass env (exec env fuel) stmt) k s = .ok () s') (n : Nat) :
    ∃ t, iterated (loopPass env (exec env fuel) stmt) n s = .ok () t ∧
      (∀ r ∈ t.refs, r.kind ≠ .expr → ¬(Node.stmt stmt).Takes r.kind → r ∈ s'.refs) ∧
      ∀ trail, t.pending = some trail → s'.pending = some trail := by
  obtain ⟨j, s₁, hj, hlast, hsame⟩ := exists_last_pass h
  have hall : iterated (loopPass env (exec env fuel) stmt) (j + 1) s = .ok () s' :=
    iterated_add_eq_ok.mpr ⟨s₁, hj, iterated_succ_eq_ok.mpr ⟨s', hlast, rfl⟩⟩
  rcases Nat.le_or_ge n (j + 1) with hle | hge
  · obtain ⟨i, hi⟩ := Nat.exists_eq_add_of_le hle
    rw [hi] at hall
    obtain ⟨t, hn, hrest⟩ := iterated_add_eq_ok.mp hall
    have hframe := iterated_frame env fuel i stmt hrest
    refine ⟨t, hn, hframe.kept, fun trail htrail => ?_⟩
    rw [hframe.pending (by simp [htrail]), htrail]
  · obtain ⟨i, rfl⟩ := Nat.exists_eq_add_of_le hge
    have hframe : Frame (.ofTask (.loop stmt)) s₁ s' :=
      iterated_frame env fuel 1 stmt (iterated_succ_eq_ok.mpr ⟨s', hlast, rfl⟩)
    -- the last pass has led to a similar state, and so do all passes after it
    have hsim : Similar s'.pending.isSome .empty s₁ s' := hframe.similar hsame
    obtain ⟨t, hi, hsim'⟩ := exists_iterated_similar
      (fun s s' => loopPass_similar env fuel stmt) hlast hsim i
    have hframe' := iterated_frame env fuel i stmt hi
    refine ⟨t, iterated_add_eq_ok.mpr ⟨s', hall, hi⟩, fun r hr _ _ => ?_, fun trail htrail => ?_⟩
    · exact (hsame r).mp (hsim'.mem hr)
    · cases hp : s'.pending with
      | some trail' => rw [← hp, ← hframe'.pending (by simp [hp]), htrail]
      | none =>
        have hquiet := hsim.pending
        have hquiet' := hsim'.pending
        simp only [hp, Option.isSome_none, Bool.false_eq_true, if_false] at hquiet hquiet'
        rw [hquiet', ← hquiet] at htrail
        cases htrail

theorem stmtEffect_of_isPassLoop (hloop : IsPassLoop stmt) (env : Env) (walk : Walk) :
    stmtEffect env walk stmt = walk (.loop stmt) := by
  cases stmt <;> first | rfl | cases hloop

/-- A loop is interpreted by its passes. -/
theorem exists_looped {fuel : Nat} (hloop : IsPassLoop stmt)
    (h : exec env fuel (.stmt stmt) s = .ok () s') :
    ∃ n, looped n (loopPass env (exec env n) stmt) s = .ok () s' := by
  obtain _ | fuel := fuel
  · cases h
  obtain ⟨⟨⟩, _, hpasses, hcheck⟩ := bind_eq_ok.mp h
  obtain ⟨rfl, -⟩ := checkLeftovers_eq_ok.mp hcheck
  rw [stmtEffect_of_isPassLoop hloop] at hpasses
  obtain _ | n := fuel
  · cases hpasses
  exact ⟨n, hpasses⟩

/-- The passes are those that it takes until nothing changes. -/
theorem loop_eq_ok {fuel : Nat} (hloop : IsPassLoop stmt)
    (h : exec env fuel (.stmt stmt) s = .ok () s') :
    ∃ n s₁, repeated (loopPass env (exec env n) stmt) n { s with depth := s.depth + 1 } =
        .ok () s₁ ∧
      s' = { s₁ with refs := s₁.refs.discardExprs s₁.depth, depth := s₁.depth - 1 } := by
  obtain ⟨n, hlooped⟩ := exists_looped hloop h
  obtain ⟨s₁, _, hrepeated, ⟨⟩, rfl⟩ := inScope_eq_ok.mp hlooped
  exact ⟨n, s₁, hrepeated, rfl⟩

/-- Where no references are tied, all passes can do is what passes with a fixed order of tied
references do. -/
theorem unrollsBy_iff {w : World} (hw : w.Closed) (huntied : w.Untied) {checked : Bool}
    {guard : Guard} {ties : TieOrder} (hn : w.nodes (.stmt stmt)) (hs : w.Tracked s) {n : Nat} :
    UnrollsBy ⟨w.table, w.catalog, checked, guard, ties⟩ stmt n s s' ↔
      Unrolls ⟨w.table, w.catalog, checked, guard, ties⟩ stmt n s s' := by
  constructor
  · rintro ⟨fuel, passes, rfl, hpasses, hrun⟩
    let m := w.mode checked guard ties fuel
    have hm : m.Lawful w := exec_lawful hw checked guard ties fuel
    have hsame : ∀ pass ∈ passes, ∀ s, w.Tracked s → pass s = loopPass (w.env m) m.walk stmt s := by
      intro pass hmem s hs
      obtain ⟨ties', walk, hwalk, rfl⟩ := hpasses pass hmem
      exact loopPass_eq_of_untied hw huntied hm (hwalk.eq_exec hw huntied) ties' hn hs
    have hkept : ∀ s s', w.Tracked s → loopPass (w.env m) m.walk stmt s = .ok () s' →
        w.Tracked s' := fun s s' hs hrun =>
      ((program_loopPass hw stmt hn).lawful hm (Effects.within_ofTask hw hn) s () s' hs hrun).2.1
    have hinTurn := inTurn_eq hkept hsame { s with depth := s.depth + 1 } hs
    exact ⟨fuel, hinTurn.symm.trans hrun⟩
  · rintro ⟨fuel, hrun⟩
    refine ⟨fuel, _, List.length_replicate, fun pass hpass => ?_,
      (inTurn_replicate _ n).symm ▸ hrun⟩
    exact ⟨ties, _, varies_exec _ ties fuel, List.eq_of_mem_replicate hpass⟩

/-- A loop stands for all its unrollings.  If a while loop, a do loop or a loop over the elements of
a value is interpreted to its end, then for every `n` there is one state after `n` passes in the
scope of the loop.  Its receivers, values of variables and returned values are held after the
loop; and a leak is recorded after the loop exactly if it is recorded after `n` passes for some
positive `n`.

This is so for every order of tied references, if it is the same one throughout.  Where no
references are tied, any picks of orders give no other state after the loop or after `n` passes. -/
theorem loop_stands_for_unrollings (env : Env) (fuel : Nat) (stmt : Stmt) (s s' : State)
    (hloop : IsPassLoop stmt) (hrun : exec env fuel (.stmt stmt) s = .ok () s') :
    (∀ n, ∃! t, Unrolls env stmt n s t) ∧
    (∀ n t, Unrolls env stmt n s t → ∀ r ∈ t.refs,
      r.kind = .this ∨ r.kind = .var ∨ r.kind = .returned → r ∈ s'.refs) ∧
    (∀ trail, s'.pending = some trail ↔
      ∃ n t, 1 ≤ n ∧ Unrolls env stmt n s t ∧ t.pending = some trail) ∧
    ∀ w : World, w.table = env.table → w.catalog = env.catalog → w.Closed → w.Untied →
      w.nodes (.stmt stmt) → w.Tracked s →
      (∀ bound walk t, Varies env bound walk → walk (.stmt stmt) s = .ok () t → t = s') ∧
      ∀ n t, UnrollsBy env stmt n s t ↔ Unrolls env stmt n s t := by
  have huntied : ∀ w : World, w.table = env.table → w.catalog = env.catalog → w.Closed →
      w.Untied → w.nodes (.stmt stmt) → w.Tracked s →
      (∀ bound walk t, Varies env bound walk → walk (.stmt stmt) s = .ok () t → t = s') ∧
      ∀ n t, UnrollsBy env stmt n s t ↔ Unrolls env stmt n s t := by
    obtain ⟨table, catalog, checked, guard, ties⟩ := env
    rintro w rfl rfl hw huntied hn hs
    refine ⟨fun bound walk t hwalk ht => ?_, fun n t => unrollsBy_iff hw huntied hn hs⟩
    exact exec_unique ((hwalk.eq_exec hw huntied (.stmt stmt) s hn hs).symm.trans ht) hrun
  obtain ⟨fuel', s₁, hrepeated, rfl⟩ := loop_eq_ok hloop hrun
  have hunrolled (n : Nat) : ∃ t, Unrolls env stmt n s t ∧
      (∀ r ∈ t.refs, r.kind ≠ .expr → r.kind ≠ .yielded → r ∈ s₁.refs) ∧
      ∀ trail, t.pending = some trail → s₁.pending = some trail := by
    obtain ⟨t, hn, hkept⟩ := exists_iterated_le hrepeated n
    exact ⟨t, ⟨fuel', hn⟩, fun r hr hexpr hyielded => hkept.1 r hr hexpr fun htakes =>
      hyielded htakes.1, hkept.2⟩
  refine ⟨fun n => ?_, fun n t ht r hr hkind => ?_, fun trail => ⟨fun htrail => ?_, ?_⟩, huntied⟩
  · obtain ⟨t, ht, -⟩ := hunrolled n
    exact ⟨t, ht, fun t' ht' => ht'.unique ht⟩
  · obtain ⟨t', ht', hkept, -⟩ := hunrolled n
    cases ht.unique ht'
    have hexpr : r.kind ≠ .expr := by rcases hkind with h | h | h <;> simp [h]
    have hyielded : r.kind ≠ .yielded := by rcases hkind with h | h | h <;> simp [h]
    exact RefSet.mem_discardExprs.mpr
      ⟨hkept r hr hexpr hyielded, fun h => hexpr (Ref.kind_of_role_expr h)⟩
  · obtain ⟨j, s₂, hj, hlast, -⟩ := exists_last_pass hrepeated
    exact ⟨j + 1, s₁, Nat.le_add_left 1 j,
      ⟨fuel', iterated_add_eq_ok.mpr ⟨s₂, hj, iterated_succ_eq_ok.mpr ⟨s₁, hlast, rfl⟩⟩⟩, htrail⟩
  · rintro ⟨n, t, -, ht, htrail⟩
    obtain ⟨t', ht', -, hleak⟩ := hunrolled n
    cases ht.unique ht'
    exact hleak trail htrail

end Unrollings

/-! ### A chain of variables -/

/-- A static method without code, to which nothing is known, and the variables of the chain. -/
def chainEnv : Env where
  table :=
    { methods := #[{ name := "register", flags := .of [.static] }]
      vars := #[{ name := "x", pos := 1 }, { name := "x", pos := 2 }, { name := "x", pos := 3 },
        { name := "x", pos := 4 }] }
  catalog := {}

/-- The variable `i` of the chain, as an expression. -/
def chainVar (i : Nat) : Expr := .ident ⟨i + 1, i + 1⟩ "x" (some (.var ⟨i⟩))

/-- The assignments that move the value of every variable up to `i` to the next one, the last one
first, and the receiver to the first one. -/
def chainMoves : Nat → List (Option Stmt)
  | 0 => [some (.exprStmt default (some (.assign default (some (chainVar 0))
      (some (.ident default "this" none)))))]
  | i + 1 => some (.exprStmt default (some (.assign default (some (chainVar (i + 1)))
      (some (chainVar i))))) :: chainMoves i

/-- A loop that hands the variable `n` to unknown code and moves all values by one variable. -/
def chainLoop (n : Nat) : Stmt :=
  .whileLoop default (some (.literal default "true")) (some (.block ⟨default, false,
    some (.exprStmt default (some (.call default
      (some (.ident default "register" (some (.method ⟨0⟩)))) [some (chainVar n)]))) ::
    chainMoves n⟩))

/-- Whether a run comes to its end with the given leak, or with none. -/
def endsWith (leak : Option Trail) : EStateM.Result Stop State Unit → Bool
  | .ok _ s => s.pending == leak
  | .error .. => false

theorem exists_of_endsWith (leak : Option Trail) (r : EStateM.Result Stop State Unit)
    (h : endsWith leak r = true) : ∃ s, r = .ok () s ∧ s.pending = leak := by
  cases r with
  | ok _ s => exact ⟨s, rfl, beq_iff_eq.mp h⟩
  | error e s => cases h

/-- The bounds of what comes up in the loop over the chain: no classes, and its variables. -/
def chainWorld : World where
  table := chainEnv.table
  catalog := {}
  nodes n := n = .stmt (chainLoop 3) ∨ (Node.stmt (chainLoop 3)).Below n
  types c := c = none
  inds _ := True
  vars v := v.index < 4

theorem of_nodes_chainWorld {n : Node} (hn : chainWorld.nodes n) :
    (∀ c ∈ n.types, c = none) ∧ ∀ v, n.target? = some v → v.index < 4 := by
  have hall : Node.allWithin (fun n => n.types.all (· == none) && n.target?.all (·.index < 4)) 8
      (.stmt (chainLoop 3)) = true := by decide +kernel
  have hn : (n.types.all (· == none) && n.target?.all (·.index < 4)) = true := by
    rcases hn with rfl | hn
    · exact (Node.of_allWithin hall).1
    · exact (Node.of_allWithin hall).2 n hn
  simpa [Option.all_eq_true] using hn

theorem chainWorld_closed : chainWorld.Closed where
  below _ _ hn hc := .inr (hn.elim (fun h => h ▸ hc) (·.trans hc))
  entry := nofun
  named _ hn := (of_nodes_chainWorld hn).1
  var
  | ⟨0⟩ | ⟨1⟩ | ⟨2⟩ | ⟨3⟩ | ⟨_ + 4⟩ => rfl
  owner
  | ⟨0⟩ | ⟨_ + 1⟩ => rfl
  elem _ := rfl
  enclosing _ := rfl
  enclosingSubclass _ _ := rfl
  ind _ _ _ _ := trivial
  target _ hn v hv := (of_nodes_chainWorld hn).2 v hv.target?_eq

theorem chainWorld_untied : chainWorld.Untied where
  types _ _ hc hc' _ := hc.trans hc'.symm
  vars := by
    have hpos : ∀ i < 4, ∀ j < 4, (chainEnv.table.var ⟨i⟩).pos = (chainEnv.table.var ⟨j⟩).pos →
        i = j := by decide +kernel
    exact fun ⟨i⟩ ⟨j⟩ hi hj h => congrArg VarId.mk (hpos i hi j hj h)

/-- The receiver takes four passes to the last of four variables and leaks in the fifth one.  The
loop finds the leak, and as no references are tied, it always does. -/
theorem chainLoop_leaks :
    ∃ s', exec chainEnv 12 (.stmt (chainLoop 3)) (.start none) = .ok () s' ∧
      (∀ t, Unrolls chainEnv (chainLoop 3) 4 (.start none) t → t.pending = none) ∧
      (∃ t, Unrolls chainEnv (chainLoop 3) 5 (.start none) t ∧ t.pending = some [4]) ∧
      s'.pending = some [4] ∧
      ∀ fuel walk t, Varies chainEnv fuel walk →
        walk (.stmt (chainLoop 3)) (.start none) = .ok () t → t = s' := by
  obtain ⟨s', hrun, -⟩ := exists_of_endsWith (some [4])
    (exec chainEnv 12 (.stmt (chainLoop 3)) (.start none)) (by decide +kernel)
  obtain ⟨t₄, h₄, hquiet⟩ := exists_of_endsWith none
    (iterated (loopPass chainEnv (exec chainEnv 12) (chainLoop 3)) 4
      { State.start none with depth := 1 }) (by decide +kernel)
  obtain ⟨t₅, h₅, hleak⟩ := exists_of_endsWith (some [4])
    (iterated (loopPass chainEnv (exec chainEnv 12) (chainLoop 3)) 5
      { State.start none with depth := 1 }) (by decide +kernel)
  have hstart : chainWorld.Tracked (.start none) := by
    intro r hr
    obtain rfl : r = .start none := by simpa [State.start] using hr
    exact ⟨rfl, trivial, nofun⟩
  obtain ⟨-, -, hfound, huntied⟩ := loop_stands_for_unrollings chainEnv 12 (chainLoop 3)
    (.start none) s' trivial hrun
  refine ⟨s', hrun, fun t ht => ?_, ⟨t₅, ⟨12, h₅⟩, hleak⟩,
    (hfound [4]).mpr ⟨5, t₅, by decide, ⟨12, h₅⟩, hleak⟩,
    (huntied chainWorld rfl rfl chainWorld_closed chainWorld_untied (.inl rfl) hstart).1⟩
  cases ht.unique ⟨12, h₄⟩
  exact hquiet

/-! ### Two classes with one name -/

/-- Two classes `L`, declared in two methods of the class `A`, with a method `iterator` each, and
the class of their iterators.  The method of the first one does nothing, that of the second one is
unknown. -/
def localsEnv : Env where
  table :=
    { classes := #[{ name := "Object" }, { name := "A" },
        { name := "L", kind := .localClass, owner := some (.method ⟨4⟩), methods := [⟨0⟩] },
        { name := "L", kind := .localClass, owner := some (.method ⟨5⟩), methods := [⟨1⟩] },
        { name := "It", methods := [⟨2⟩, ⟨3⟩] }]
      methods := #[{ name := "iterator", owner := some ⟨2⟩, result := some ⟨4⟩ },
        { name := "iterator", owner := some ⟨3⟩, result := some ⟨4⟩ },
        { name := "hasNext", owner := some ⟨4⟩ }, { name := "next", owner := some ⟨4⟩ },
        { name := "first", owner := some ⟨1⟩ }, { name := "second", owner := some ⟨1⟩ }]
      vars := #[{ name := "v" }] }
  catalog.entries := [(⟨0⟩,
    ⟨default, ⟨⟨0⟩, default, some ⟨0⟩, [], [], some ⟨default, false, []⟩⟩, false, true⟩)]

/-- A loop without a body over the elements of the receiver as an instance of the one class `L` or
of the other. -/
def localsLoop : Stmt :=
  .forEach default (some ⟨default, some ⟨0⟩, [], none⟩)
    (some (.conditional ⟨4, 4⟩ (some (.literal default "true"))
      (some (.cast ⟨5, 5⟩ (some ⟨2⟩) (some (.ident default "this" none))))
      (some (.cast ⟨6, 6⟩ (some ⟨3⟩) (some (.ident default "this" none)))))) none

/-- The order in which instances of the second class `L` come first. -/
def secondFirst : TieOrder := fun r => if r.type = some ⟨3⟩ then 0 else 1

/-- The loop can come to its end without a leak, as a pass in which the first class `L` comes first
changes nothing, although a leak is recorded after one pass in which the second one does. -/
theorem namesakes_hide_unrolling :
    (∃ fuel walk s', Varies localsEnv fuel walk ∧
      walk (.stmt localsLoop) (.start (some ⟨1⟩)) = .ok () s' ∧ s'.pending = none) ∧
    ∃ t, UnrollsBy localsEnv localsLoop 1 (.start (some ⟨1⟩)) t ∧ t.pending = some [4] := by
  obtain ⟨s', hrun, hquiet⟩ := exists_of_endsWith none
    (exec localsEnv 8 (.stmt localsLoop) (.start (some ⟨1⟩))) (by decide +kernel)
  let env : Env := { localsEnv with ties := secondFirst }
  obtain ⟨t, hpass, hleak⟩ := exists_of_endsWith (some [4])
    (inTurn [loopPass env (exec env 8) localsLoop] { State.start (some ⟨1⟩) with depth := 1 })
    (by decide +kernel)
  refine ⟨⟨8, _, s', varies_exec localsEnv .byIdentity 8, hrun, hquiet⟩,
    t, ⟨8, _, List.length_singleton, ?_, hpass⟩, hleak⟩
  rw [List.forall_mem_singleton]
  exact ⟨secondFirst, exec env 8, varies_exec localsEnv secondFirst 8, rfl⟩

end EarlyEscape.Interp
