import EarlyEscape.Proofs.Catalog.Parentheses
import EarlyEscape.Proofs.Interp.Bounds
import EarlyEscape.Proofs.Interp.Reach

/-!
# The interpreter and parentheses

An expression in parentheses is interpreted as the expression, one step later.  So that bounds on
the steps do not get in the way, the interpreter is compared with one that takes off all parentheses
at no cost.  That one makes the same steps at trees without and with parentheses, for it sees nodes
of the same form only; and it agrees with the interpreter up to the bound on the steps, since a tree
has only so many parentheses around one expression.

## Main definitions

* `Interp.bare` : the interpreter that takes off parentheses at no cost.
* `Interp.ComesTo` : a run comes to a result if its bound on the steps is large enough.

## Main results

* `Interp.bare_eq` : it makes the same steps if parentheses are added.
* `Interp.exec_approx_bare`, `Interp.bare_approx_exec` : it agrees with the interpreter.
* `Interp.comesTo_withParens` : the interpreter comes to the same results if parentheses are added.
-/

namespace EarlyEscape.Interp

open Function

/-! ### Related code -/

/-- Added parentheses do not change the code that may run. -/
theorem codeRel_withParens (t : SymbolTable) : CodeRel t Node.WithParens where
  expr h := h.unparen
  cls h := by
    obtain ⟨d', rfl, hid, hspan, hsym, -, hmembers⟩ := h.cls
    refine ⟨d', rfl, hid, hspan, hsym, Node.WithParens.initializers hmembers t, ?_⟩
    refine (Node.WithParens.methods hmembers).imp fun md md' hmd => ?_
    obtain ⟨hid, hsym, -, hparams, hbody⟩ := Node.WithParens.method hmd
    exact ⟨hid, hsym, hparams, hbody⟩
  form h hexpr _ := h.form hexpr

theorem sameCode_of_withParens {t : SymbolTable} {e e' : Catalog.Entry} (h : e.WithParens e') :
    e.SameCode t Node.WithParens e' := by
  obtain ⟨_, ⟨⟩, hcls⟩ := (codeRel_withParens t).cls h.cls
  obtain ⟨hid, hsym, -, hparams, hbody⟩ := h.decl.method
  exact ⟨hcls, ⟨hid, hsym, hparams, hbody⟩, h.analyzable, h.invokable⟩

/-- Calls are resolved to the same code, with parentheses added. -/
theorem resolve?_withParens {env : Env} {cat : Catalog} (h : env.catalog.WithParens cat)
    (m : Option MethodId) (receiver : List Ref) :
    SameResult (Option.Rel (Catalog.Entry.SameCode env.table Node.WithParens))
      (resolve? env m receiver) (resolve? { env with catalog := cat } m receiver) := by
  have hfound {o o' : Option Catalog.Entry} (ho : Option.Rel Catalog.Entry.WithParens o o') :
      Option.Rel (Catalog.Entry.SameCode env.table Node.WithParens) o o' := by
    cases ho with
    | none => exact .none
    | some he => exact .some (sameCode_of_withParens he)
  unfold resolve?
  dsimp only
  have hlookup := h.lookup? m
  generalize env.catalog.lookup? m = o, cat.lookup? m = o' at hlookup
  cases hlookup with
  | some he => exact .ok (.some (sameCode_of_withParens he))
  | none =>
    dsimp only
    split
    · next r =>
      have hover := h.overrider? env.table m r.type
      generalize env.catalog.overrider? env.table m r.type = o,
        cat.overrider? env.table m r.type = o' at hover
      cases hover with
      | error => exact .error
      | ok ho => exact .ok (hfound ho)
    · exact .ok .none

/-! ### The bare interpreter -/

/-- The effect of an expression without the parentheses around it, if anything is left. -/
def stepBare (env : Env) (walk : Walk) (e : Expr) : Interp Unit :=
  e.unparen.elim (pure ()) (stepExpr env walk)

/-- Interprets a piece of a program like `exec`, but takes off parentheses at no cost. -/
def bare (env : Env) : Nat → Task → Interp Unit
  | 0, _ => throw .exhausted
  | n + 1, .expr e => stepBare env (bare env n) e
  | n + 1, .drop e => do
    stepBare env (bare env n) e
    dropResult
  | n + 1, t => step env (bare env n) n t

theorem bare_drop (env : Env) (n : Nat) (e : Expr) :
    bare env n (.drop e) = bare env n (.expr e) >>= fun _ => dropResult := by
  cases n <;> rfl

/-- The bare interpreter makes the same steps if parentheses are added. -/
theorem bare_eq {env : Env} {cat : Catalog} (h : env.catalog.WithParens cat) (n : Nat)
    {t t' : Task} (ht : t.Related Node.WithParens t') :
    bare env n t = bare { env with catalog := cat } n t' := by
  induction n generalizing t t' with
  | zero => rfl
  | succ n ih =>
    have hpar : Parallel Node.WithParens env cat (bare env n)
        (bare { env with catalog := cat } n) :=
      ⟨codeRel_withParens env.table, resolve?_withParens h,
        fun c => by simp only [Catalog.isNonPublic, h.nonPublic],
        fun s => by simp only [Catalog.isSuppressed, h.suppressed], ih⟩
    have hexpr {e e' : Expr} (he : Node.WithParens (.expr e) (.expr e')) :
        bare env (n + 1) (.expr e) = bare { env with catalog := cat } (n + 1) (.expr e') := by
      obtain ⟨_, ⟨⟩, -, hform⟩ := he.unparen
      simp only [bare, stepBare]
      generalize e.unparen = x, e'.unparen = x' at hform
      cases hform with
      | none => simp only [Option.elim_none]
      | some hx => exact hpar.stepExpr hx
    cases ht with
    | expr he => exact hexpr he
    | drop he => rw [bare_drop, bare_drop, hexpr he]
    | stmt hs => exact hpar.stepStmt hs
    | loop hs => exact congrArg (looped n) (hpar.loopPass hs)

/-! ### The bare interpreter and the interpreter -/

/-- A larger bound makes up for parentheses. -/
theorem exec_approx_bare (env : Env) {n n' : Nat} (hn : n ≤ n') (t : Task) (s : State) :
    Approx OutOfSteps (exec env n t s) (bare env n' t s) := by
  have hw := World.all_closed env.table env.catalog
  induction n generalizing n' t s with
  | zero => exact .error rfl
  | succ n ih =>
    obtain ⟨k, rfl⟩ : ∃ k, n' = k + 1 := ⟨n' - 1, by omega⟩
    have hstep (t : Task) (hbare : bare env (k + 1) t = step env (bare env k) k t) :
        Approx OutOfSteps (exec env (n + 1) t s) (bare env (k + 1) t s) := by
      let M := (World.all env.table env.catalog).mode env.checked env.guard env.ties n
      let M' : Mode := ⟨env.checked, env.guard, env.ties, bare env k, k⟩
      rw [hbare]
      change Approx _ (step ((World.all _ _).env M) M.walk M.passes t s)
        (step ((World.all _ _).env M') M'.walk M'.passes t s)
      exact step_approx M' hw (exec_lawful hw env.checked env.guard env.ties n) steady_true rfl
        (.inl rfl) (Nat.le_of_succ_le_succ hn) (fun _ _ => rfl) (fun _ _ _ => .refl)
        (fun t s _ _ _ => ih (Nat.le_of_succ_le_succ hn) t s) t trivial s (World.all_tracked s)
        trivial
    have hexpr (e : Expr) :
        Approx OutOfSteps (exec env (n + 1) (.expr e) s) (bare env (k + 1) (.expr e) s) := by
      cases e with
      | paren span x =>
        cases x with
        | none => exact .refl
        | some e => exact ih (Nat.le_of_succ_le hn) (.expr e) s
      | _ => exact hstep (.expr _) rfl
    cases t with
    | stmt | loop => exact hstep _ rfl
    | expr e => exact hexpr e
    | drop e =>
      rw [exec_drop, bare_drop]
      exact bind_approx (hexpr e) fun _ _ _ => .refl

/-- Some steps take off all parentheses. -/
theorem exec_unparen (env : Env) : ∀ e : Expr, ∃ k, k ≤ sizeOf e ∧ ∀ n,
    exec env (n + k) (.expr e) = e.unparen.elim (pure ()) fun x => exec env n (.expr x)
  | .paren span none => ⟨1, by simp, fun _ => rfl⟩
  | .paren span (some e) => by
    obtain ⟨k, hk, hexec⟩ := exec_unparen env e
    refine ⟨k + 1, by simp; omega, fun n => ?_⟩
    exact hexec n
  | .ident .. | .select .. | .typeName .. | .call .. | .new .. | .newArray .. | .assign ..
  | .assignOp .. | .unary .. | .binary .. | .conditional .. | .cast .. | .instanceOf .. | .index ..
  | .lambda .. | .memberRef .. | .switchExpr .. | .literal .. | .unknown .. =>
    ⟨0, Nat.zero_le _, fun _ => rfl⟩

/-- The world of nodes of size at most `n`. -/
def World.upTo (t : SymbolTable) (cat : Catalog) (n : Nat) : World :=
  ⟨t, cat, fun c => sizeOf c ≤ n, fun _ => True, fun _ => True, fun _ => True⟩

section UpTo

variable {t : SymbolTable} {cat : Catalog} {size : Nat}

theorem World.upTo_closed (h : (World.sized t cat size).Closed) : (World.upTo t cat size).Closed :=
  ⟨h.below, h.entry, fun _ _ _ _ => trivial, fun _ => trivial, fun _ => trivial, fun _ => trivial,
    fun _ => trivial, fun _ _ => trivial, fun _ _ _ _ => trivial, fun _ _ _ _ => trivial⟩

theorem World.upTo_tracked (s : State) : (World.upTo t cat size).Tracked s :=
  fun _ _ => ⟨trivial, trivial, fun _ _ => trivial⟩

/-- The bare interpreter as a mode. -/
def World.bareMode (w : World) (checked : Bool) (guard : Guard) (ties : TieOrder) (n : Nat) :
    Mode where
  checked := checked
  guard := guard
  ties := ties
  walk := bare ⟨w.table, w.catalog, checked, guard, ties⟩ n
  passes := n

/-- The bare interpreter respects the frames of all pieces of a program. -/
theorem bare_lawful {w : World} (hw : w.Closed) (checked : Bool) (guard : Guard)
    (ties : TieOrder) (n : Nat) : (w.bareMode checked guard ties n).Lawful w := by
  induction n with
  | zero => exact fun _ _ _ _ _ hrun => nomatch hrun
  | succ n ih =>
    intro t s s' ht hs hrun
    change bare _ (n + 1) t s = _ at hrun
    have hexpr (e : Expr) (he : w.nodes (.expr e)) (s' : State)
        (hrun : bare ⟨w.table, w.catalog, checked, guard, ties⟩ (n + 1) (.expr e) s = .ok () s') :
        w.Tracked s' ∧ Frame (.ofTask (.expr e)) s s' := by
      simp only [bare, stepBare] at hrun
      cases hx : e.unparen with
      | none =>
        rw [hx] at hrun
        cases hrun
        exact ⟨hs, .refl⟩
      | some x =>
        rw [hx] at hrun
        have hruns : (Node.expr e).Runs (.expr x) := Node.runs_of_unparen? hx
        have hnode : w.nodes (.expr x) := hw.within he hruns.within
        obtain ⟨hs', hframe⟩ := step_lawful hw ih (t := .expr x) hnode s s' hs hrun
        refine ⟨hs', hframe.mono (fun role ⟨c, hc, h⟩ => ⟨c, hruns.trans hc, h⟩) ?_⟩
        rintro k ⟨rfl, span, selector, cases, hc⟩
        exact ⟨rfl, span, selector, cases, hruns.trans hc⟩
    cases t with
    | stmt | loop => exact step_lawful hw ih ht s s' hs hrun
    | expr e => exact hexpr e ht s' hrun
    | drop e =>
      rw [bare_drop] at hrun
      obtain ⟨_, s₁, hrun, hdrop⟩ := bind_eq_ok.mp hrun
      obtain ⟨hs₁, hframe⟩ := hexpr e ht s₁ hrun
      have hdropped : Program w (.ofTask (.expr e)) .busy (fun _ => dropResult) (fun _ => True)
        .idle := program_dropResult
      obtain ⟨-, hs', hframe'⟩ :=
        hdropped.lawful ih (Effects.within_ofTask hw ht) s₁ () s' hs₁ hdrop
      rw [Effects.ofTask_drop]
      exact ⟨hs', hframe.trans hframe'⟩

/-- So many steps make up for the parentheses in nodes of bounded size. -/
theorem bare_approx_exec {env : Env} (hsize : (World.sized env.table env.catalog size).Closed)
    {n n' : Nat} (hn : n * (size + 1) ≤ n') {t : Task} (ht : sizeOf t.node ≤ size) (s : State) :
    Approx OutOfSteps (bare env n t s) (exec env n' t s) := by
  have hw := World.upTo_closed hsize
  induction n generalizing n' t s with
  | zero => exact .error rfl
  | succ n ih =>
    have hstep {k : Nat} (hk : n * (size + 1) ≤ k) {t : Task} (ht : sizeOf t.node ≤ size) :
        Approx OutOfSteps (step env (bare env n) n t s) (exec env (k + 1) t s) := by
      let w := World.upTo env.table env.catalog size
      let M := w.bareMode env.checked env.guard env.ties n
      let M' := w.mode env.checked env.guard env.ties k
      change Approx _ (step (w.env M) M.walk M.passes t s) (step (w.env M') M'.walk M'.passes t s)
      have hpasses : n ≤ k := Nat.le_trans (Nat.le_mul_of_pos_right n (Nat.succ_pos size)) hk
      exact step_approx M' hw (bare_lawful hw env.checked env.guard env.ties n) steady_true rfl
        (.inl rfl) hpasses (fun _ _ => rfl) (fun _ _ _ => .refl)
        (fun t s ht _ _ => ih hk ht s) t ht s (World.upTo_tracked s) trivial
    rw [Nat.succ_mul] at hn
    have hexpr (e : Expr) (he : sizeOf (Node.expr e) ≤ size) :
        Approx OutOfSteps (bare env (n + 1) (.expr e) s) (exec env n' (.expr e) s) := by
      obtain ⟨k, hk, hexec⟩ := exec_unparen env e
      have hk : k ≤ size := by
        simp only [Node.expr.sizeOf_spec] at he
        omega
      obtain ⟨m, rfl⟩ : ∃ m, n' = m + 1 + k := ⟨n' - 1 - k, by omega⟩
      rw [hexec (m + 1)]
      simp only [bare, stepBare]
      cases hx : e.unparen with
      | none => exact .refl
      | some x =>
        have hruns : (Node.expr e).Runs (.expr x) := Node.runs_of_unparen? hx
        exact hstep (by omega) (t := .expr x) (Nat.le_trans (Node.sizeOf_le_of_runs hruns) he)
    cases t with
    | stmt | loop =>
      obtain ⟨k, rfl⟩ : ∃ k, n' = k + 1 := ⟨n' - 1, by omega⟩
      exact hstep (by omega) ht
    | expr e => exact hexpr e ht
    | drop e =>
      rw [bare_drop, exec_drop]
      exact bind_approx (hexpr e ht) fun _ _ _ => .refl

end UpTo

/-- For all nodes up to a size there is one factor by which a larger bound makes up for
parentheses. -/
theorem exists_bare_approx_exec (env : Env) (size : Nat) :
    ∃ k, ∀ n t s, sizeOf t.node ≤ size →
      Approx OutOfSteps (bare env n t s) (exec env (n * k) t s) := by
  obtain ⟨m, hm⟩ := World.exists_sized_closed env.table env.catalog
  refine ⟨max m size + 1, fun n t s ht => ?_⟩
  exact bare_approx_exec (hm _ (Nat.le_max_left m size)) (Nat.le_refl _)
    (Nat.le_trans ht (Nat.le_max_right m size)) s

/-! ### Results -/

/-- The run comes to the result if its bound on the steps is large enough. -/
def ComesTo {α : Type} (run : Nat → EStateM.Result Stop State α)
    (r : EStateM.Result Stop State α) : Prop :=
  ¬Exhausts r ∧ ∃ n, run n = r

/-- Runs that agree up to the bound on the steps come to the same results. -/
theorem comesTo_congr {α : Type} {run run' : Nat → EStateM.Result Stop State α}
    (h : ∀ n, ∃ n', Approx OutOfSteps (run n) (run' n'))
    (h' : ∀ n, ∃ n', Approx OutOfSteps (run' n) (run n')) (r : EStateM.Result Stop State α) :
    ComesTo run r ↔ ComesTo run' r := by
  constructor
  · rintro ⟨hr, n, rfl⟩
    obtain ⟨n', hn⟩ := h n
    exact ⟨hr, n', (eq_of_approx hn hr).symm⟩
  · rintro ⟨hr, n, rfl⟩
    obtain ⟨n', hn⟩ := h' n
    exact ⟨hr, n', (eq_of_approx hn hr).symm⟩

/-- The interpreter comes to the same results as the one that takes off parentheses at no cost. -/
theorem comesTo_bare_iff (env : Env) (t : Task) (s : State) (r : EStateM.Result Stop State Unit) :
    ComesTo (exec env · t s) r ↔ ComesTo (bare env · t s) r := by
  obtain ⟨k, hk⟩ := exists_bare_approx_exec env (sizeOf t.node)
  exact comesTo_congr (fun n => ⟨n, exec_approx_bare env (Nat.le_refl n) t s⟩)
    (fun n => ⟨n * k, hk n t s (Nat.le_refl _)⟩) r

/-- A piece of a program comes to the same results if parentheses are added, there and in the
catalog. -/
theorem comesTo_withParens {env : Env} {cat : Catalog} (h : env.catalog.WithParens cat)
    {t t' : Task} (ht : t.Related Node.WithParens t') (s : State)
    (r : EStateM.Result Stop State Unit) :
    ComesTo (exec env · t s) r ↔ ComesTo (exec { env with catalog := cat } · t' s) r := by
  rw [comesTo_bare_iff, comesTo_bare_iff]
  simp only [bare_eq h _ ht]

end EarlyEscape.Interp
