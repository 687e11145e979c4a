import EarlyEscape.Proofs.Catalog.Contents
import EarlyEscape.Proofs.Interp.Arguments

/-!
# Other expressions for the instance

In code whose receiver may be the instance, many expressions have the instance as their value: the
receiver under its names, variables that hold it, and what casts, choices, arrays and switches make
of these.  However such expressions are nested, and whatever code runs in between, their results
say so, and unknown code that gets one of them as an argument is a leak.

## Main definitions

* `Interp.Alias` : expressions that may have the instance as their value.
* `Interp.State.Knows` : the receiver and the given variables may be the instance.
* `Interp.State.Offers` : the result may be the instance.

## Main results

* `Interp.exec_alias` : the result of such an expression may be the instance.
* `Interp.call_reports_alias` : passing it to unknown code is a leak.
-/

namespace EarlyEscape.Interp

attribute [local simp] Task.node Node.children Node.exprChildren

/-! ### Aliases -/

/-- The expression may have the instance as its value, in code of the class `c` where the receiver
and the variables `V` may be the instance. -/
inductive Alias (c : Option ClassId) (V : VarId → Prop) : Expr → Prop
  /-- A plain name of the receiver. -/
  | receiver {span : Span} {name : String} {sym : Option Symbol}
      (h : isReceiverName name = true) : Alias c V (.ident span name sym)
  /-- The receiver under the name of its class. -/
  | qualified {span : Span} {x : Option Expr} {name : String} {sym : Option Symbol} {cls : ClassId}
      (h : qualifier? x name = some (some cls)) (hc : c = some cls) :
      Alias c V (.select span x name sym)
  | var {span : Span} {name : String} {v : VarId} (h : V v) :
      Alias c V (.ident span name (some (.var v)))
  | paren {span : Span} {e : Expr} (h : Alias c V e) : Alias c V (.paren span (some e))
  | cast {span : Span} {cls : ClassId} {e : Expr} (h : Alias c V e) :
      Alias c V (.cast span (some cls) (some e))
  | yes {span : Span} {cond no : Option Expr} {e : Expr} (h : Alias c V e) :
      Alias c V (.conditional span cond (some e) no)
  | no {span : Span} {cond yes : Option Expr} {e : Expr} (h : Alias c V e) :
      Alias c V (.conditional span cond yes (some e))
  /-- An element of an array that is created with an alias among its elements. -/
  | element {span aspan : Span} {type : Option ClassId} {dims elems : List (Option Expr)}
      {i : Option Expr} {cls : ClassId} {e : Expr} (he : some e ∈ elems) (h : Alias c V e) :
      Alias c V (.index span (some (.newArray aspan type dims elems)) i (some cls))
  /-- A switch with a case that ends with yielding an alias. -/
  | yielded {span yspan : Span} {selector : Option Expr} {cases : List Case} {k : Case}
      {stmts : List (Option Stmt)} {e : Expr} (hk : k ∈ cases)
      (hbody : k.body = stmts ++ [some (.yieldStmt yspan (some e))]) (h : Alias c V e) :
      Alias c V (.switchExpr span selector cases)

/-- The state is one of code of the class `c`, and its receiver and the variables `V` may be the
instance. -/
structure State.Knows (c : Option ClassId) (V : VarId → Prop) (s : State) : Prop where
  cls : s.methodClass = c
  receiver : ∃ r ∈ s.refs, r.role = .this ∧ r.isDirect = true
  var : ∀ v, V v → ∃ r ∈ s.refs, r.role = .var v ∧ r.isDirect = true

/-- The result in the current scope may be the instance. -/
def State.Offers (s : State) : Prop := ∃ r ∈ s.refs, r.role = .expr s.depth ∧ r.isDirect = true

section Knows

variable {env : Env} {c : Option ClassId} {V : VarId → Prop} {s s' : State} {n : Nat}

/-- What is known stays known while code runs that takes away nothing but yielded values. -/
theorem State.Knows.frame {E : Effects} (h : s.Knows c V) (hE : ∀ k, E.takes k → k = .yielded)
    (hframe : Frame E s s') : s'.Knows c V where
  cls := hframe.methodClass.trans h.cls
  receiver := by
    obtain ⟨r, hr, hrole, hdirect⟩ := h.receiver
    have hkind : r.kind = .this := congrArg Ref.Role.kind hrole
    exact ⟨r, hframe.kept r hr (by simp [hkind]) fun ht => by simpa [hkind] using hE _ ht, hrole,
      hdirect⟩
  var v hv := by
    obtain ⟨r, hr, hrole, hdirect⟩ := h.var v hv
    have hkind : r.kind = .var := congrArg Ref.Role.kind hrole
    exact ⟨r, hframe.kept r hr (by simp [hkind]) fun ht => by simpa [hkind] using hE _ ht, hrole,
      hdirect⟩

/-- What is known stays known along the parts of a piece of a program. -/
theorem State.Knows.part (h : s.Knows c V) {t : Task} {p q : Phase} {α : Type}
    {x : Mode → Interp α} {W : α → Prop} {a : α}
    (hx : Program (World.all env.table env.catalog) (.ofTask t) p x W q)
    (hrun : x ((World.all env.table env.catalog).mode env.checked env.guard env.ties n) s =
      .ok a s') :
    s'.Knows c V :=
  h.frame (fun _ ht => And.left ht) (hx.of_run hrun).2

/-- What is known does not depend on the scope. -/
theorem State.Knows.scope (h : s.Knows c V) : State.Knows c V { s with depth := s.depth + 1 } :=
  ⟨h.cls, h.receiver, h.var⟩

end Knows

/-! ### Steps -/

section Steps

variable {env : Env} {walk : Walk} {s s' : State}

theorem find_eq_ok {k : Ref.Kind} {p : Ref → Bool} {rs : List Ref}
    (h : find env k p s = .ok rs s') :
    s' = s ∧ ∀ r, r ∈ rs ↔ r ∈ s.refs ∧ r.kind = k ∧ p r = true := by
  obtain ⟨⟨⟩, s₁, horder, ⟨⟩⟩ := bind_eq_ok.mp h
  cases (requireOrder_eq_ok.mp horder).2
  exact ⟨rfl, fun r => RefSet.mem_find⟩

/-- Pushing a reference that may be the instance offers it. -/
theorem offers_push {rs : List Ref} (h : ∃ r ∈ rs, r.isDirect = true)
    (hrun : push rs s = .ok () s') : s'.Offers := by
  cases hrun
  obtain ⟨r, hr, hdirect⟩ := h
  exact ⟨r.asExpr s.depth, RefSet.mem_insertAll.mpr (.inl (List.mem_map_of_mem hr)), rfl, hdirect⟩

/-- Pushing more references takes nothing away. -/
theorem State.Offers.push (h : s.Offers) {rs : List Ref} (hrun : push rs s = .ok () s') :
    s'.Offers := by
  cases hrun
  obtain ⟨r, hr, hrole, hdirect⟩ := h
  exact ⟨r, RefSet.mem_insertAll.mpr (.inr hr), hrole, hdirect⟩

theorem State.Offers.takeResult (h : s.Offers) {rs : List Ref}
    (hrun : takeResult env s = .ok rs s') : ∃ r ∈ rs, r.isDirect = true := by
  obtain ⟨r, hr, hrole, hdirect⟩ := h
  exact ⟨r, ((takeResult_eq_ok hrun).1 r).mpr ⟨hr, hrole⟩, hdirect⟩

theorem State.Knows.pushThis {c : Option ClassId} {V : VarId → Prop} (h : s.Knows c V)
    (hrun : pushThis env s = .ok () s') : s'.Offers := by
  obtain ⟨rs, s₁, hfind, hpush⟩ := bind_eq_ok.mp hrun
  obtain ⟨rfl, hrs⟩ := find_eq_ok hfind
  obtain ⟨r, hr, hrole, hdirect⟩ := h.receiver
  exact offers_push ⟨r, (hrs r).mpr ⟨hr, congrArg Ref.Role.kind hrole, rfl⟩, hdirect⟩ hpush

end Steps

/-! ### Arrays -/

theorem toIndirect_of_isDirect {r : Ref} (h : r.isDirect = true) :
    r.toIndirect = some { r with ind := .indirect } := by
  have hall : ∀ b : BitVec 8, BitMask.meets ⟨b⟩ Indirection.direct = true →
      BitMask.ofList ((BitMask.toList ⟨b⟩).filterMap fun _ => some Indirection.indirect) =
        Indirections.indirect := by decide +kernel
  have hind := hall r.ind.bits h
  simp only [Ref.toIndirect, Ref.project]
  rw [hind]
  rfl

/-- An element of an array that contains the instance may be the instance. -/
theorem fromIndirect_indirect {r : Ref} {c : Option ClassId} (h : r.ind = .indirect) :
    r.fromIndirect c = some { r with type := c, ind := .direct } := by
  have hind : BitMask.ofList (Indirections.indirect.toList.filterMap fun i =>
      if i = Indirection.indirect then some Indirection.direct else none) =
      Indirections.direct := by decide +kernel
  simp only [Ref.fromIndirect, Ref.project, h]
  rw [hind]
  rfl

section Parts

variable {env : Env} {c : Option ClassId} {V : VarId → Prop} {s s' : State} {n : Nat}

/-- The interpretation of the expression offers the instance whenever the receiver and the variables
are known. -/
def Offering (env : Env) (c : Option ClassId) (V : VarId → Prop) (e : Expr) : Prop :=
  ∀ n s s', s.Knows c V → exec env n (.expr e) s = .ok () s' → s'.Offers

theorem Offering.value {e : Expr} (h : Offering env c V e) (hs : s.Knows c V) {rs : List Ref}
    (hrun : value env (exec env n) (some e) s = .ok rs s') : ∃ r ∈ rs, r.isDirect = true := by
  obtain ⟨⟨⟩, s₁, heval, htake⟩ := bind_eq_ok.mp hrun
  exact (h n s s₁ hs heval).takeResult htake

/-- An array with such an element contains the instance. -/
theorem Offering.runElements {t : Task} {e : Expr} (h : Offering env c V e) {type : Option ClassId}
    {elems : List (Option Expr)} (he : some e ∈ elems)
    (hcovers : ∀ x ∈ elems, (Effects.ofTask t).CoversExpr x) (hs : s.Knows c V) {rs : List Ref}
    (hrun : runElements env (exec env n) type elems s = .ok rs s') :
    ∃ r ∈ rs, r.ind = .indirect := by
  induction elems generalizing s rs with
  | nil => cases he
  | cons x elems ih =>
    obtain ⟨as, s₁, hvalue, hrun⟩ := bind_eq_ok.mp hrun
    obtain ⟨rest, s₂, hrest, ⟨⟩⟩ := bind_eq_ok.mp hrun
    rcases List.mem_cons.mp he with rfl | he
    · obtain ⟨r, hr, hdirect⟩ := h.value hs hvalue
      refine ⟨Ref.withType { r with ind := .indirect } type, List.mem_append_left _ ?_, rfl⟩
      exact List.mem_map_of_mem (List.mem_filterMap.mpr ⟨r, hr, toIndirect_of_isDirect hdirect⟩)
    · have hs₁ : s₁.Knows c V := hs.part (program_value (hcovers x List.mem_cons_self)) hvalue
      obtain ⟨r, hr, hind⟩ := ih he (fun y hy => hcovers y (List.mem_cons_of_mem x hy)) hs₁ hrest
      exact ⟨r, List.mem_append_right _ hr, hind⟩

/-! ### Switches -/

/-- A statement that yields such an expression holds the instance as a yielded value. -/
theorem Offering.yieldStmt {e : Expr} (h : Offering env c V e) {span : Span} (hs : s.Knows c V)
    (hrun : exec env n (.stmt (.yieldStmt span (some e))) s = .ok () s') :
    ∃ r ∈ s'.refs, r.role = .yielded ∧ r.isDirect = true := by
  obtain _ | n := n
  · cases hrun
  obtain ⟨⟨⟩, s₁, heffect, hcheck⟩ := bind_eq_ok.mp hrun
  obtain ⟨⟨⟩, s₂, heval, hstore⟩ := bind_eq_ok.mp heffect
  obtain ⟨rfl, -⟩ := checkLeftovers_eq_ok.mp hcheck
  cases relabelResult_eq_ok hstore
  obtain ⟨r, hr, hrole, hdirect⟩ := h n s s₂ hs heval
  exact ⟨r.asYielded, RefSet.mem_replaceExprs.mpr (.inl ⟨r, hr, hrole, rfl⟩), rfl, hdirect⟩

variable {t : Task} {e : Expr} {span : Span} {rs : List Ref}

theorem program_case {k : Case} (h : (Effects.ofTask t).CoversCase k) :
    Program (World.all env.table env.catalog) (.ofTask t) .idle
      (fun m => runCase ((World.all env.table env.catalog).env m) m.walk rs k) (fun _ => True)
      .idle :=
  program_runCase (World.all_closed env.table env.catalog) trivial h fun _ _ =>
    ⟨trivial, trivial, fun _ _ => trivial⟩

/-- A case that ends with such a statement does so, too. -/
theorem Offering.runCase (h : Offering env c V e) {k : Case} {stmts : List (Option Stmt)}
    (hbody : k.body = stmts ++ [some (.yieldStmt span (some e))])
    (hcovers : (Effects.ofTask t).CoversCase k) (hs : s.Knows c V)
    (hrun : runCase env (exec env n) rs k s = .ok () s') :
    ∃ r ∈ s'.refs, r.role = .yielded ∧ r.isDirect = true := by
  -- all but the last statement is a case of its own
  have hsplit : Interp.runCase env (exec env n) rs k =
      Interp.runCase env (exec env n) rs { k with body := stmts } >>= fun _ =>
        exec env n (.stmt (.yieldStmt span (some e))) := by
    have happend : (stmts ++ [some (Stmt.yieldStmt span (some e))]).forM (runStmt (exec env n)) =
        stmts.forM (runStmt (exec env n)) >>= fun _ =>
          exec env n (.stmt (.yieldStmt span (some e))) >>= fun _ => pure () :=
      List.forM_append
    simp only [Interp.runCase, hbody, happend, bind_assoc, bind_pure_unit]
  have hfirst : (Effects.ofTask t).CoversCase { k with body := stmts } := by
    intro t' ht'
    refine hcovers t' ?_
    simp only [Node.children, List.mem_append, hbody, Node.mem_ofStmts] at ht' ⊢
    obtain ht' | ⟨x, hx, heq⟩ := ht'
    · exact .inl ht'
    · exact .inr ⟨x, .inl hx, heq⟩
  rw [hsplit] at hrun
  obtain ⟨⟨⟩, s₁, hcase, hyield⟩ := bind_eq_ok.mp hrun
  exact h.yieldStmt (hs.part (program_case hfirst) hcase) hyield

/-- What such a case yields is among the values of the switch, whatever the other cases do. -/
theorem Offering.runYieldingCases (h : Offering env c V e) {cases : List Case} {k : Case}
    {stmts : List (Option Stmt)} (hk : k ∈ cases)
    (hbody : k.body = stmts ++ [some (.yieldStmt span (some e))])
    (hcovers : ∀ k ∈ cases, (Effects.ofTask t).CoversCase k)
    (htakes : (Effects.ofTask t).takes .yielded) (hs : s.Knows c V) {ys : List Ref}
    (hrun : runYieldingCases env (exec env n) rs cases s = .ok ys s') :
    ∃ r ∈ ys, r.isDirect = true := by
  induction cases generalizing s ys with
  | nil => cases hk
  | cons k' cases ih =>
    obtain ⟨⟨⟩, s₁, hcase, hrun⟩ := bind_eq_ok.mp hrun
    obtain ⟨as, s₂, htake, hrun⟩ := bind_eq_ok.mp hrun
    obtain ⟨rest, s₃, hrest, ⟨⟩⟩ := bind_eq_ok.mp hrun
    have hcovers' := hcovers k' List.mem_cons_self
    rcases List.mem_cons.mp hk with rfl | hk
    · obtain ⟨r, hr, hrole, hdirect⟩ := h.runCase hbody hcovers' hs hcase
      obtain ⟨-, rfl, -⟩ := takeAll_eq_ok.mp htake
      exact ⟨r, List.mem_append_left _
        (RefSet.mem_find.mpr ⟨hr, congrArg Ref.Role.kind hrole, rfl⟩), hdirect⟩
    · have hs₁ : s₁.Knows c V := hs.part (program_case hcovers') hcase
      have hs₂ : s₂.Knows c V := hs₁.part (n := n) (program_takeAll htakes nofun (p := .idle)) htake
      obtain ⟨r, hr, hdirect⟩ :=
        ih hk (fun k hk => hcovers k (List.mem_cons_of_mem k' hk)) hs₂ hrest
      exact ⟨r, List.mem_append_right _ hr, hdirect⟩

end Parts

/-! ### The forms of aliases -/

section Forms

variable {env : Env} {c : Option ClassId} {V : VarId → Prop} {span : Span} {e : Expr}

theorem offering_receiver {name : String} {sym : Option Symbol}
    (hname : isReceiverName name = true) :
    Offering env c V (.ident span name sym) := by
  rintro (_ | n) s s' hs hrun
  · cases hrun
  have hpush : pushThis env s = .ok () s' := by
    simpa only [exec, step, stepExpr, ident, hname, if_true] using hrun
  exact hs.pushThis hpush

theorem offering_qualified {x : Option Expr} {name : String} {sym : Option Symbol} {cls : ClassId}
    (hq : qualifier? x name = some (some cls)) (hc : c = some cls) :
    Offering env c V (.select span x name sym) := by
  rintro (_ | n) s s' hs hrun
  · cases hrun
  have hpush : pushThis env s = .ok () s' := by
    have hcls : s.methodClass = some cls := hs.cls.trans hc
    have hqualified : qualifiedThis env (some cls) (name == "super") s = .ok () s' := by
      simpa only [exec, step, stepExpr, select, hq] using hrun
    obtain ⟨s₁, s₂, ⟨⟩, hqualified⟩ := bind_eq_ok.mp hqualified
    simpa only [hcls, beq_self_eq_true, Bool.true_or, if_true] using hqualified
  exact hs.pushThis hpush

theorem offering_var {name : String} {v : VarId} (hv : V v) :
    Offering env c V (.ident span name (some (.var v))) := by
  rintro (_ | n) s s' hs hrun
  · cases hrun
  change ident env name (some (.var v)) s = .ok () s' at hrun
  unfold ident at hrun
  split at hrun
  · exact hs.pushThis hrun
  · obtain ⟨rs, s₁, hfind, hpush⟩ := bind_eq_ok.mp hrun
    obtain ⟨rfl, hrs⟩ := find_eq_ok hfind
    obtain ⟨r, hr, hrole, hdirect⟩ := hs.var v hv
    have hvar : (r.var? == some v) = true := by simp [Ref.var?, hrole]
    exact offers_push ⟨r, (hrs r).mpr ⟨hr, congrArg Ref.Role.kind hrole, hvar⟩, hdirect⟩ hpush

namespace Offering

variable (ih : Offering env c V e)

include ih

theorem paren : Offering env c V (.paren span (some e)) := by
  rintro (_ | n) s s' hs hrun
  · cases hrun
  exact ih n s s' hs hrun

theorem cast {cls : ClassId} : Offering env c V (.cast span (some cls) (some e)) := by
  rintro (_ | n) s s' hs hrun
  · cases hrun
  obtain ⟨⟨⟩, s₁, heval, hretype⟩ := bind_eq_ok.mp hrun
  cases relabelResult_eq_ok hretype
  obtain ⟨r, hr, hrole, hdirect⟩ := ih n s s₁ hs heval
  exact ⟨_, RefSet.mem_replaceExprs.mpr (.inl ⟨r, hr, hrole, rfl⟩), hrole, hdirect⟩

theorem yes {cond no : Option Expr} : Offering env c V (.conditional span cond (some e) no) := by
  rintro (_ | n) s s' hs hrun
  · cases hrun
  obtain ⟨⟨⟩, s₁, hcond, hrun⟩ := bind_eq_ok.mp hrun
  obtain ⟨a, s₂, hyes, hrun⟩ := bind_eq_ok.mp hrun
  obtain ⟨b, s₃, hno, hrun⟩ := bind_eq_ok.mp hrun
  obtain ⟨⟨⟩, s₄, hpush, hpush'⟩ := bind_eq_ok.mp hrun
  have hs₁ : s₁.Knows c V := hs.part (t := .expr (.conditional span cond (some e) no))
    (program_evalDrop (Effects.coversExpr_child rfl fun x hx => by simp [hx])) hcond
  exact (offers_push (ih.value hs₁ hyes) hpush).push hpush'

theorem no {cond yes : Option Expr} : Offering env c V (.conditional span cond yes (some e)) := by
  rintro (_ | n) s s' hs hrun
  · cases hrun
  obtain ⟨⟨⟩, s₁, hcond, hrun⟩ := bind_eq_ok.mp hrun
  obtain ⟨a, s₂, hyes, hrun⟩ := bind_eq_ok.mp hrun
  obtain ⟨b, s₃, hno, hrun⟩ := bind_eq_ok.mp hrun
  obtain ⟨⟨⟩, s₄, hpush, hpush'⟩ := bind_eq_ok.mp hrun
  have hs₁ : s₁.Knows c V := hs.part (t := .expr (.conditional span cond yes (some e)))
    (program_evalDrop (Effects.coversExpr_child rfl fun x hx => by simp [hx])) hcond
  have hs₂ : s₂.Knows c V := hs₁.part (t := .expr (.conditional span cond yes (some e)))
    (program_value (Effects.coversExpr_child rfl fun x hx => by simp [hx])) hyes
  exact offers_push (ih.value hs₂ hno) hpush'

/-- What an array holds comes back as its element. -/
theorem element {aspan : Span} {type : Option ClassId} {dims elems : List (Option Expr)}
    {i : Option Expr} {cls : ClassId} (he : some e ∈ elems) :
    Offering env c V (.index span (some (.newArray aspan type dims elems)) i (some cls)) := by
  rintro (_ | _ | n) s s' hs hrun
  · cases hrun
  · obtain ⟨rs, s₁, hvalue, -⟩ := bind_eq_ok.mp hrun
    obtain ⟨⟨⟩, s₂, ⟨⟩, -⟩ := bind_eq_ok.mp hvalue
  obtain ⟨rs, s₁, hvalue, hrun⟩ := bind_eq_ok.mp hrun
  obtain ⟨⟨⟩, s₂, hindex, hpush⟩ := bind_eq_ok.mp hrun
  obtain ⟨⟨⟩, s₃, harray, htake⟩ := bind_eq_ok.mp hvalue
  obtain ⟨⟨⟩, s₄, hdims, harray⟩ := bind_eq_ok.mp harray
  obtain ⟨as, s₅, helems, ⟨⟩⟩ := bind_eq_ok.mp harray
  have hparts : ∀ x ∈ dims ++ elems,
      (Effects.ofTask (.expr (.newArray aspan type dims elems))).CoversExpr x := by
    refine fun x hx => Effects.coversExpr_child rfl fun y hy => ?_
    simpa [hy] using hx
  have hs₄ : s₄.Knows c V :=
    hs.part (program_evalDrops fun x hx => hparts x (List.mem_append_left _ hx)) hdims
  obtain ⟨r, hr, hind⟩ :=
    ih.runElements he (fun x hx => hparts x (List.mem_append_right _ hx)) hs₄ helems
  have hfrom : (r.asExpr s₅.depth).fromIndirect (some cls) =
      some { r.asExpr s₅.depth with type := some cls, ind := .direct } :=
    fromIndirect_indirect hind
  have hdirect : Indirections.direct.meets Indirection.direct = true := by decide
  have hmem : r.asExpr s₅.depth ∈ rs := ((takeResult_eq_ok htake).1 _).mpr
    ⟨RefSet.mem_insertAll.mpr (.inl (List.mem_map_of_mem hr)), rfl⟩
  have helem : { r.asExpr s₅.depth with type := some cls, ind := .direct } ∈
      rs.filterMap (·.fromIndirect (some cls)) := List.mem_filterMap.mpr ⟨_, hmem, hfrom⟩
  exact offers_push ⟨_, helem, hdirect⟩ hpush

/-- What a case yields is moved from the scope of the switch to the one outside. -/
theorem yielded {yspan : Span} {selector : Option Expr} {cases : List Case} {k : Case}
    {stmts : List (Option Stmt)} (hk : k ∈ cases)
    (hbody : k.body = stmts ++ [some (.yieldStmt yspan (some e))]) :
    Offering env c V (.switchExpr span selector cases) := by
  rintro (_ | n) s s' hs hrun
  · cases hrun
  obtain ⟨s₁, s₂, hscope, hleave, rfl⟩ := inScope_eq_ok.mp hrun
  obtain ⟨rs, s₃, hvalue, hscope⟩ := bind_eq_ok.mp hscope
  obtain ⟨ys, s₄, hcases, hpush⟩ := bind_eq_ok.mp hscope
  have hs₃ : s₃.Knows c V := hs.scope.part (t := .expr (.switchExpr span selector cases))
    (program_value (Effects.coversExpr_child rfl fun x hx => by simp [hx])) hvalue
  have hyields := ih.runYieldingCases (t := .expr (.switchExpr span selector cases)) hk hbody
    (fun k hk t' ht' => Effects.covers_grandchild rfl (by simp [hk]) rfl ht')
    ⟨rfl, span, selector, cases, .refl⟩ hs₃ hcases
  obtain ⟨r, hr, hrole, hdirect⟩ := offers_push hyields hpush
  obtain ⟨-, rfl⟩ := promoteResult_eq_ok.mp hleave
  exact ⟨_, RefSet.mem_replaceExprs.mpr (.inl ⟨r, hr, hrole, rfl⟩), rfl, hdirect⟩

end Offering

end Forms

/-! ### All aliases -/

/-- The result of an alias may be the instance. -/
theorem exec_alias {env : Env} {c : Option ClassId} {V : VarId → Prop} {e : Expr}
    (h : Alias c V e) : Offering env c V e := by
  induction h with
  | receiver hname => exact offering_receiver hname
  | qualified hq hc => exact offering_qualified hq hc
  | var hv => exact offering_var hv
  | paren _ ih => exact ih.paren
  | cast _ ih => exact ih.cast
  | yes _ ih => exact ih.yes
  | no _ ih => exact ih.no
  | element he _ ih => exact ih.element he
  | yielded hk hbody _ ih => exact ih.yielded hk hbody

/-! ### Calls of unknown code -/

theorem triggersLeak_of_isDirect {env : Env} {r : Ref} (h : r.isDirect = true) :
    triggersLeak env r = true := by
  have hall : ∀ b : BitVec 8, BitMask.meets ⟨b⟩ Indirection.direct = true →
      BitMask.isOnly ⟨b⟩ Indirection.outer = false := by decide +kernel
  have honly : r.ind.isOnly Indirection.outer = false := hall r.ind.bits h
  simp [triggersLeak, honly]

section Calls

variable {env : Env} {c : Option ClassId} {V : VarId → Prop} {s s' : State} {n : Nat} {e : Expr}

/-- An alias that is handed to unknown code is a leak. -/
theorem Offering.passUnknown (h : Offering env c V e) (hs : s.Knows c V)
    (hrun : passUnknown env (exec env n) (some e) s = .ok () s') : s'.pending ≠ none := by
  obtain ⟨rs, s₁, hvalue, hleak⟩ := bind_eq_ok.mp hrun
  obtain ⟨r, hr, hdirect⟩ := h.value hs hvalue
  rw [if_pos (List.any_eq_true.mpr ⟨r, hr, triggersLeak_of_isDirect hdirect⟩)] at hleak
  rcases leakAt_eq_ok.mp hleak with ⟨hleak, rfl⟩ | ⟨-, pos, -, rfl⟩
  · exact hleak
  · exact Option.some_ne_none _

/-- It is one among other arguments. -/
theorem Offering.passUnknowns {t : Task} (h : Offering env c V e) {args : List (Option Expr)}
    (he : some e ∈ args) (hcovers : ∀ a ∈ args, (Effects.ofTask t).CoversExpr a)
    (hcalls : ∀ pos, t.LeaksAt pos) (hs : s.Knows c V)
    (hrun : args.forM (Interp.passUnknown env (exec env n)) s = .ok () s') : s'.pending ≠ none := by
  induction args generalizing s with
  | nil => cases he
  | cons a args ih =>
    have hrest : ∀ a ∈ args, (Effects.ofTask t).CoversExpr a :=
      fun b hb => hcovers b (List.mem_cons_of_mem a hb)
    obtain ⟨⟨⟩, s₁, hfirst, hargs⟩ := bind_eq_ok.mp hrun
    rcases List.mem_cons.mp he with rfl | he
    · exact keepsLeak_passUnknowns hrest hcalls _ _ _ hargs (h.passUnknown hs hfirst)
    · exact ih he hrest (hs.part (program_passUnknown (hcovers a List.mem_cons_self) (hcalls _))
        hfirst) hargs

end Calls

/-- A method that the unit does not declare is resolved to nothing when it is called without
receiver, and warnings are not suppressed for it. -/
theorem unknown_of_not_declared {env : Env} {u : CompilationUnit} {lint : Lint} {m : MethodId}
    (hcat : Catalog.build env.table u lint = .ok env.catalog)
    (hunit : ∀ d md, ¬Catalog.Declares (.file u) d md m) :
    resolve? env (some m) [] = .ok none ∧ env.catalog.isSuppressed (.method m) = false := by
  constructor
  · cases hlookup : env.catalog.lookup? (some m) with
    | none => simp [resolve?, hlookup]
    | some entry =>
      obtain ⟨hinside, hdeclared, hnamed, -⟩ :=
        (Catalog.describes_of_build hcat).entry m entry (Catalog.mem_of_lookup? hlookup)
      exact absurd ⟨hinside, hdeclared, hnamed⟩ (hunit entry.cls entry.decl)
  · refine Bool.eq_false_iff.mpr fun h => ?_
    obtain ⟨d, md, hdeclares⟩ := Catalog.declares_of_isSuppressed hcat h
    exact hunit d md hdeclares

/-- An alias among the arguments of a call of a static method that is neither native nor a
constructor, that no class of the unit declares and that is no final method of the root class, is a
leak: in any state whose receiver may be the instance, and whatever the other parts of the call and
of the alias do. -/
theorem call_reports_alias (env : Env) (u : CompilationUnit) (lint : Lint)
    (hcat : Catalog.build env.table u lint = .ok env.catalog) (fuel : Nat) (s s' : State)
    (span : Span) (callee : Option Expr) (args : List (Option Expr)) (m : MethodId) (e : Expr)
    (hreceiver : ∃ r ∈ s.refs, r.role = .this ∧ r.isDirect = true)
    (hm : methodOf? callee = some m) (hstatic : (env.table.method m).isStatic = true)
    (hctor : (env.table.method m).isConstructor = false)
    (hnative : (env.table.method m).isNative = false)
    (hfinal : env.table.isObjectFinal m = false)
    (hunit : ∀ d md, ¬Catalog.Declares (.file u) d md m) (harg : some e ∈ args)
    (halias : Alias s.methodClass (fun v => ∃ r ∈ s.refs, r.role = .var v ∧ r.isDirect = true) e)
    (hrun : exec env fuel (.expr (.call span callee args)) s = .ok () s') :
    s'.pending ≠ none := by
  obtain _ | n := fuel
  · cases hrun
  obtain ⟨hresolve, hsuppressed⟩ := unknown_of_not_declared hcat hunit
  obtain ⟨hcallee, hargs⟩ := @covers_call span callee args
  have hsuper : isSuperCall env callee = false := by simp [isSuperCall, hm, hctor]
  have hexempt : isExempt env m = false := by simp [isExempt, hsuppressed, hfinal, hnative]
  have hcall : call env (exec env n) (.ofExpr? (some (.call span callee args))) callee args s =
      .ok () s' := hrun
  rw [call_eq hsuper] at hcall
  obtain ⟨rs, s₁, hfirst, hinvoke⟩ := bind_eq_ok.mp hcall
  have hrs : rs = [] := by
    obtain ⟨⟨⟩, s₂, -, hrest⟩ := bind_eq_ok.mp hfirst
    simp only [hm, Option.any_some, hstatic, if_true] at hrest
    obtain ⟨⟨⟩, s₃, -, ⟨⟩⟩ := bind_eq_ok.mp hrest
    rfl
  have hs₁ : s₁.Knows s.methodClass _ :=
    State.Knows.part ⟨rfl, hreceiver, fun _ => id⟩ (program_callReceivers hcallee) hfirst
  subst hrs
  have hpass : args.forM (passUnknown env (exec env n)) s₁ = .ok () s' := by
    simpa [invoke, hm, hexempt, hresolve, invokeUnknown, Site.ofExpr?] using hinvoke
  exact (exec_alias halias).passUnknowns harg hargs (fun _ => .inl trivial) hs₁ hpass

/-- Surroundings with a static method of unknown code, outside a unit without classes. -/
def registerEnv : Env where
  table := { methods := #[{ name := "register", flags := .of [.static] }] }
  catalog := {}

/-- The receiver, cast and in parentheses, as what a switch yields. -/
def yieldedThis : Expr :=
  .switchExpr default (some (.literal default "key"))
    [⟨default, [], [], none, [some (.exprStmt default (some (.literal default "other")))]⟩,
      ⟨default, [], [], none, [some (.empty default)] ++ [some (.yieldStmt default
        (some (.paren default (some (.cast default (some ⟨0⟩)
          (some (.ident default "this" none)))))))]⟩]

/-- A choice of an array element that is yielded by a switch. -/
def nestedThis : Expr :=
  .conditional ⟨7, 9⟩ (some (.literal default "flag")) none
    (some (.index default (some (.newArray default none [] [none, some yieldedThis])) none
      (some ⟨0⟩)))

theorem alias_nestedThis (c : Option ClassId) (V : VarId → Prop) : Alias c V nestedThis :=
  have hyielded : Alias c V yieldedThis :=
    .yielded (List.mem_cons_of_mem _ List.mem_cons_self) rfl
      (.paren (.cast (.receiver (by decide))))
  .no (.element (List.mem_cons_of_mem _ List.mem_cons_self) hyielded)

theorem call_reports_nestedThis :
    ∃ s', exec registerEnv 12 (.expr (.call default
        (some (.ident default "register" (some (.method ⟨0⟩))))
        [some (.literal default "name"), some nestedThis])) (.start none) = .ok () s' ∧
      s'.pending ≠ none := by
  obtain ⟨s', hrun, -⟩ := exists_of_endsWith (some [7])
    (exec registerEnv 12 (.expr (.call default
      (some (.ident default "register" (some (.method ⟨0⟩))))
      [some (.literal default "name"), some nestedThis])) (.start none)) (by decide +kernel)
  have hstart : (Ref.start none) ∈ (State.start none).refs := by decide
  refine ⟨s', hrun, call_reports_alias registerEnv ⟨default, "A.java", none, none, []⟩
    { enabled := true } rfl 12 _ s' _ _ _ ⟨0⟩ nestedThis ⟨_, hstart, rfl, by decide⟩ rfl (by decide)
    (by decide) (by decide) (by decide) ?_ (List.mem_cons_of_mem _ List.mem_cons_self)
    (alias_nestedThis _ _) hrun⟩
  rintro d md ⟨hinside, -, -⟩
  obtain ⟨b, hb, -⟩ := Relation.TransGen.head'_iff.mp hinside
  cases hb

end EarlyEscape.Interp
