import EarlyEscape.Proofs.Interp.Aliases

/-!
# Constructors of inner classes

Code that creates an instance of an inner class without naming the outer instance hands on its
receiver.  What the receiver of the new instance's constructor is related to follows from the
relation of the old one by `Ref.toOuter`, and the name of the outer instance leads back by
`Ref.fromOuter`.

## Main definitions

* `RefSet.HasReceiver` : a set with one receiver and nothing else but values of variables.
* `Interp.NamesStatic` : names of static methods that lead to no code.
* `Interp.Settles` : the initializers of a class neither leak nor change the new instance.

## Main results

* `Interp.exec_newInner` : creating an instance does what its constructor does.
* `Interp.exec_passOuter` : passing an outer instance to unknown code.
-/

namespace EarlyEscape

/-! ### Sets with one receiver -/

namespace RefSet

/-- The set of one reference. -/
def single (r : Ref) : RefSet := ⟨[r], List.nodup_singleton r⟩

variable {t : SymbolTable} {s : RefSet} {r x : Ref} {d : Int}

@[simp] theorem mem_single : x ∈ single r ↔ x = r := List.mem_singleton

theorem sorted_single : (single r).sorted t ties = [r] := by
  simp [sorted, single, sortBy, insertBy]

/-- The receiver in the set is `r`, and there is nothing else but values of variables. -/
structure HasReceiver (t : SymbolTable) (r : Ref) (s : RefSet) : Prop where
  listable : s.isListable t = true
  mem : r ∈ s
  receiver : ∀ x ∈ s, x.kind = .this ↔ x = r
  seed : ∀ x ∈ s, Interp.IsSeed x

theorem hasReceiver_ofList (h : r.kind = .this) : (ofList [r]).HasReceiver t r where
  listable := by simp [isListable, ofList, insertAll, insert, empty]
  mem := by simp
  receiver x hx := by
    obtain rfl : x = r := by simpa using hx
    simp [h]
  seed x hx := by
    obtain rfl : x = r := by simpa using hx
    exact .inl h

namespace HasReceiver

theorem kind (h : s.HasReceiver t r) : r.kind = .this := (h.receiver r h.mem).mpr rfl

theorem find (h : s.HasReceiver t r) : s.find t ties .this (fun _ => true) = [r] := by
  have hsingle : s.find t ties .this (fun _ => true) =
      (single r).find t ties .this fun _ => true := by
    refine find_eq fun x hx _ => ⟨fun hmem => ?_, ?_⟩
    · exact mem_single.mpr ((h.receiver x hmem).mp hx)
    · rintro hmem
      exact mem_single.mp hmem ▸ h.mem
  rw [hsingle, RefSet.find, sorted_single]
  simp [h.kind]

theorem not_expr (h : s.HasReceiver t r) {k : Int} (hx : x ∈ s) : x.role ≠ .expr k := by
  intro hrole
  have hkind := Ref.kind_of_role_expr hrole
  rcases h.seed x hx with hx | hx <;> simp [hkind] at hx

/-- A sort of places that neither receivers nor variables have can be added. -/
theorem isListable_insertAll (h : s.HasReceiver t r) {y : Ref} (hy : ¬Interp.IsSeed y) :
    (s.insertAll [y]).isListable t = true := by
  have hother : ∀ x ∈ s, x.samePlace t y = false ∧ y.samePlace t x = false := by
    intro x hx
    have hkind : x.kind ≠ y.kind := by
      intro heq
      exact hy (by simpa [Interp.IsSeed, heq] using h.seed x hx)
    simp [Ref.samePlace, hkind, Ne.symm hkind]
  have hlist := h.listable
  simp only [isListable, List.all_eq_true, Bool.or_eq_true, ← mem_def, mem_insertAll,
    List.mem_singleton] at hlist ⊢
  rintro a (rfl | ha)
  · refine .inr ?_
    rintro b (rfl | hb)
    · simp
    · simp [(hother b hb).2]
  · refine (hlist a ha).imp id fun hall => ?_
    rintro b (rfl | hb)
    · simp [(hother a ha).1]
    · exact hall b hb

theorem discardExprs (h : s.HasReceiver t r) : s.discardExprs d = s := by
  refine RefSet.ext (List.filter_eq_self.mpr fun x hx => ?_)
  simpa [isExprAt] using h.not_expr hx

/-- A result is gone after it is dropped. -/
theorem discardExprs_insertAll (h : s.HasReceiver t r) :
    (s.insertAll [x.asExpr d]).discardExprs d = s := by
  have hnew : x.asExpr d ∉ s := fun hmem => h.not_expr hmem rfl
  refine RefSet.ext ?_
  have hlist : (s.insertAll [x.asExpr d]).toList = x.asExpr d :: s.toList := by
    simp only [insertAll, List.foldl_cons, List.foldl_nil, insert]
    rw [dif_neg (mem_def.not.mp hnew)]
  change ((s.insertAll [x.asExpr d]).toList.filter _) = s.toList
  rw [hlist, List.filter_cons_of_neg (by simp [isExprAt, Ref.asExpr])]
  exact congrArg RefSet.toList h.discardExprs

/-- The result is what was pushed. -/
theorem extractExprs_insertAll (h : s.HasReceiver t r) :
    (s.insertAll [x.asExpr d]).extractExprs t ties d = ([x.asExpr d], s) := by
  refine Prod.ext ?_ h.discardExprs_insertAll
  have hsingle : ((s.insertAll [x.asExpr d]).sorted t ties).filter (isExprAt d) =
      ((single (x.asExpr d)).sorted t ties).filter (isExprAt d) := by
    refine filter_sorted_eq fun y hy => ?_
    rw [mem_insertAll, List.mem_singleton, mem_single]
    exact or_iff_left fun hmem => h.not_expr hmem (isExprAt_iff.mp hy)
  refine hsingle.trans ?_
  rw [sorted_single]
  simp [isExprAt, Ref.asExpr]

theorem extractExprs (h : s.HasReceiver t r) : s.extractExprs t ties d = ([], s) := by
  refine Prod.ext ?_ h.discardExprs
  refine List.filter_eq_nil_iff.mpr fun x hx => ?_
  simpa [isExprAt] using h.not_expr (mem_sorted.mp hx)

/-- When the receiver is returned, it is all that is returned. -/
theorem find_returned (h : s.HasReceiver t r) :
    ((s.extract t ties .this fun _ => true).2.insertAll [r.asReturned]).find t ties .returned
      (fun _ => true) = [r.asReturned] := by
  have hsingle : ((s.extract t ties .this fun _ => true).2.insertAll [r.asReturned]).find t ties
      .returned (fun _ => true) = (single r.asReturned).find t ties .returned fun _ => true := by
    refine find_eq fun x hx _ => ?_
    rw [mem_insertAll, List.mem_singleton, mem_single, mem_extract]
    refine or_iff_left fun ⟨hmem, _⟩ => ?_
    rcases h.seed x hmem with hkind | hkind <;> cases hx.symm.trans hkind
  rw [hsingle, RefSet.find, sorted_single]
  rfl

theorem isListable_returned (h : s.HasReceiver t r) :
    ((s.extract t ties .this fun _ => true).2.insertAll [r.asReturned]).isListable t = true := by
  refine isListable_of_subset (fun x hx => ?_)
    (h.isListable_insertAll (y := r.asReturned) (by rintro (h | h) <;> cases h))
  simp only [mem_insertAll, mem_extract] at hx ⊢
  exact hx.imp id And.left

end HasReceiver

end RefSet

namespace Interp

open RefSet (HasReceiver)

variable {env : Env} {s s₁ : State} {r r' : Ref} {c c' : ClassId} {n : Nat}

/-! ### Receivers -/

theorem receivers_of_hasReceiver (hs : s.refs.HasReceiver env.table r) :
    receivers env s = .ok [r] s := by
  change (requireOrder env >>= fun _ => get >>= fun st =>
    pure (st.refs.find env.table env.ties .this fun _ => true)) s = _
  rw [bind_apply, requireOrder_apply, hs.listable, if_pos rfl]
  change EStateM.Result.ok (s.refs.find env.table env.ties .this fun _ => true) s = _
  rw [hs.find]

/-- The outer instance of a new instance of an inner class of the current class is the receiver. -/
theorem outerReceiver_of_enclosing (hs : s.refs.HasReceiver env.table r)
    (hclass : s.methodClass = some c) (henclosing : env.table.enclosing? c' = some c)
    (houter : r.toOuter (some c') = some r') : outerReceiver env c' s = .ok [r'] s := by
  have hself : env.table.isSubclass (some c) (some c) = true := by
    simp [SymbolTable.isSubclass, SymbolTable.inheritsWithin]
  change (receivers env >>= fun rs => pure (rs.filterMap fun r =>
    (if env.table.isSubclass s.methodClass (env.table.enclosing? c') then some r
      else if env.table.isEnclosedBy s.methodClass (env.table.enclosing? c') then
        r.fromOuter (env.table.enclosing? c')
      else none).bind (·.toOuter (some c')))) s = _
  rw [bind_apply, receivers_of_hasReceiver hs, hclass, henclosing, hself]
  simp [houter]
  rfl

/-! ### Constructors -/

/-- The initializers of a class, run in the state `s` for the new instance `r`, come to their end
without a leak and leave only values of variables besides the instance. -/
def Settles (env : Env) (d : ClassDecl) (r : Ref) (s : State) : Prop :=
  ∃ n s₁, runInitializers env (exec env n) d s = .ok () s₁ ∧ s₁.refs.HasReceiver env.table r ∧
    s₁.pending = none

/-- More steps do not change what the initializers of a class do. -/
theorem runInitializers_mono {d : ClassDecl} {k : Nat} (hle : n ≤ k)
    (h : runInitializers env (exec env n) d s = .ok () s₁) :
    runInitializers env (exec env k) d s = .ok () s₁ := by
  have hw := World.all_closed env.table env.catalog
  have hprogram : Program (World.all env.table env.catalog) (.inside fun _ => True) .idle
      (fun m => runInitializers (World.env _ m) m.walk d) (fun _ => True) .idle :=
    program_runInitializers fun _ _ => trivial
  exact hprogram.run_of_le hw (Effects.within_inside fun _ _ => trivial) hle (World.all_tracked s) h

/-- The initializers of a class leave the place of the running code as it was. -/
theorem frame_runInitializers {d : ClassDecl}
    (h : runInitializers env (exec env n) d s = .ok () s₁) :
    Frame (.inside fun _ => True) s s₁ :=
  ((program_runInitializers (w := World.all env.table env.catalog) fun _ _ => trivial).of_run h).2

/-- A constructor whose code is one statement, after the initializers, returns its receiver. -/
theorem runMethod_of_statement {walk : Walk} {entry : Catalog.Entry} {body : Block} {stmt : Stmt}
    {leak : Option Trail} {log : List LogRecord} (hs : s₁.refs.HasReceiver env.table r)
    (hctor : entry.decl.isConstructor env.table = true) (hthis : isThisCall (some stmt) = false)
    (hinit : runInitializers env walk entry.cls s = .ok () s₁) (hbody : body.stmts = [some stmt])
    (hrun : walk (.stmt stmt) { s₁ with depth := s₁.depth + 1 } =
      .ok () { s₁ with depth := s₁.depth + 1, pending := leak, log }) :
    runMethod env walk entry body s = .ok () { s₁ with
      refs := (s₁.refs.extract env.table env.ties .this fun _ => true).2.insertAll [r.asReturned]
      pending := leak, log } := by
  have hstmts : body.stmts.forM (runStmt walk) { s₁ with depth := s₁.depth + 1 } =
      .ok () { s₁ with depth := s₁.depth + 1, pending := leak, log } := by
    rw [hbody]
    change (walk (.stmt stmt) >>= fun _ => pure ()) _ = _
    rw [bind_apply, hrun]
    rfl
  have hblock : runBlock walk (some body) s₁ = .ok () { s₁ with pending := leak, log } := by
    simp only [runBlock, inScope_apply, hstmts]
    change EStateM.Result.ok () _ = _
    simp [hs.discardExprs]
  have htake : takeAll env .this { s₁ with pending := leak, log } = .ok [r] { s₁ with
      refs := (s₁.refs.extract env.table env.ties .this fun _ => true).2, pending := leak, log } :=
    takeAll_eq_ok.mpr ⟨hs.listable, hs.find.symm, rfl⟩
  simp only [runMethod, hctor, hbody, List.head?_cons, Option.join_some, hthis, Bool.not_false,
    Bool.and_true, if_true]
  rw [bind_apply, hinit]
  dsimp only
  rw [bind_apply, hblock]
  dsimp only
  rw [bind_apply, htake]
  rfl

/-! ### Creation of instances -/

/-- The creation of an instance without arguments, its outer instance not named. -/
def newInner (span : Span) (c : ClassId) (ctor : MethodId) : Expr :=
  .new span none (some c) (some ctor) [] none

theorem checkLeftovers_of_hasReceiver (hs : s.refs.HasReceiver env.table r) (stmt : Stmt) :
    checkLeftovers env stmt s = .ok () s := by
  have hnone : s.leftover? env = none := by
    refine List.find?_eq_none.mpr fun x hx => ?_
    rcases hs.seed x (RefSet.mem_sorted.mp hx) with hkind | hkind <;> simp [hkind]
  exact checkLeftovers_eq_ok.mpr ⟨rfl, fun _ => ⟨hs.listable, hnone⟩⟩

/-- A statement that is an expression forgets its result. -/
theorem exec_exprStmt {e : Expr} {span : Span} {refs : RefSet} {t : State}
    (hdrop : t.refs.discardExprs t.depth = refs) (hrefs : refs.HasReceiver env.table r)
    (h : exec env n (.expr e) s = .ok () t) :
    exec env (n + 1) (.stmt (.exprStmt span (some e))) s = .ok () { t with refs } := by
  have heval : evalDrop (exec env n) (some e) s = .ok () { t with refs } :=
    exec_drop_eq_ok.mpr ⟨t, h, hdrop ▸ rfl⟩
  change (evalDrop (exec env n) (some e) >>= fun _ =>
    checkLeftovers env (.exprStmt span (some e))) s = _
  rw [bind_apply, heval]
  exact checkLeftovers_of_hasReceiver (s := { t with refs }) hrefs _

section New

variable {ctor : MethodId} {span nspan : Span} (hs : s.refs.HasReceiver env.table r)
  (hclass : s.methodClass = some c) (henclosing : env.table.enclosing? c' = some c)
  (hhas : (env.table.cls c').hasOuter = true) (houter : r.toOuter (some c') = some r')

include hs hclass henclosing hhas houter

/-- The creation of an instance of an inner class of the current class is a call of the
constructor. -/
theorem exec_newInner_eq :
    exec env (n + 1) (.expr (newInner nspan c' ctor)) s =
      invoke env (exec env n) ⟨some nspan.pos, true⟩ (some ctor) [] [r'] s := by
  change create env (exec env n) ⟨some nspan.pos, true⟩ none (some c') (some ctor) [] none s = _
  rw [create_eq, bind_apply]
  simp only [newReceivers, hhas, if_true, createAt]
  rw [outerReceiver_of_enclosing hs hclass henclosing houter]

/-- The creation does nothing if calls of the constructor are harmless. -/
theorem exec_newInner_of_exempt (hexempt : isExempt env ctor = true) :
    exec env (n + 2) (.stmt (.exprStmt span (some (newInner nspan c' ctor)))) s = .ok () s := by
  have hcreate : exec env (n + 1) (.expr (newInner nspan c' ctor)) s = .ok () s := by
    rw [exec_newInner_eq hs hclass henclosing hhas houter]
    simp only [invoke, Option.any_some, hexempt, if_true]
    rfl
  exact exec_exprStmt hs.discardExprs hs hcreate

/-- Otherwise the creation does what the constructor does, and forgets the new instance. -/
theorem exec_newInner {entry : Catalog.Entry} {body : Block} {stmt : Stmt} {leak : Option Trail}
    {log : List LogRecord} (hknown : Known env (some ctor) [r'] entry body)
    (hctor : entry.decl.isConstructor env.table = true) (hbody : body.stmts = [some stmt])
    (hthis : isThisCall (some stmt) = false)
    (hcut : isCut env s entry.decl.id (.ofList [r']) = false)
    (hinit : runInitializers env (exec env n) entry.cls
      (s.called nspan.pos entry.decl.id entry.cls.sym (.ofList [r'])) = .ok () s₁)
    (hs₁ : s₁.refs.HasReceiver env.table r') (htarget : s₁.targetClass = s.targetClass)
    (hrun : exec env n (.stmt stmt) { s₁ with depth := s₁.depth + 1 } =
      .ok () { s₁ with depth := s₁.depth + 1, pending := leak, log }) :
    exec env (n + 2) (.stmt (.exprStmt span (some (newInner nspan c' ctor)))) s =
      .ok () { s with pending := leak, log } := by
  have henter : enter env (some nspan.pos) entry.decl.id entry.cls.sym (.ofList [r'])
      (runMethod env (exec env n) entry body) s =
      .ok [r'.asReturned] { s with pending := leak, log } := by
    have hmethod := runMethod_of_statement hs₁ hctor hthis hinit hbody hrun
    refine enter_eq_ok.mpr (.inr ⟨nspan.pos, _, rfl, hcut, hmethod, hs₁.isListable_returned,
      hs₁.find_returned.symm, ?_⟩)
    simp only [State.back, htarget]
  have hcreate : exec env (n + 1) (.expr (newInner nspan c' ctor)) s =
      .ok () { s with
        refs := s.refs.insertAll [r'.asReturned.asExpr s.depth], pending := leak, log } := by
    rw [exec_newInner_eq hs hclass henclosing hhas houter]
    simp only [invoke, hknown.exempt, hknown.resolved, hknown.invokable, hknown.body,
      Bool.false_eq_true, if_false]
    change (enter env (some nspan.pos) entry.decl.id entry.cls.sym (.ofList [r'])
      (runMethod env (exec env n) entry body) >>= push) s = _
    rw [bind_apply, henter]
    rfl
  exact exec_exprStmt hs.discardExprs_insertAll hs hcreate

end New

/-! ### Outer instances as arguments -/

/-- A name of the static method `m`, with or without its class. -/
inductive NamesStatic (m : MethodId) : Expr → Prop
  | simple {span : Span} {name : String} (h : isReceiverName name = false) :
      NamesStatic m (.ident span name (some (.method m)))
  | member {span tspan : Span} {cls : Option ClassId} {name : String}
      (h : isReceiverName name = false) :
      NamesStatic m (.select span (some (.typeName tspan cls)) name (some (.method m)))

section Pass

variable {m : MethodId} {callee : Expr}

theorem takeResult_of_hasReceiver (hs : s.refs.HasReceiver env.table r) :
    takeResult env s = .ok [] s := by
  change (requireOrder env >>= fun _ => modifyGet fun s =>
    ((s.refs.extractExprs env.table env.ties s.depth).1,
      { s with refs := (s.refs.extractExprs env.table env.ties s.depth).2 })) s = _
  rw [bind_apply, requireOrder_apply, hs.listable, if_pos rfl]
  change EStateM.Result.ok _ _ = _
  rw [hs.extractExprs]

/-- The result is what was pushed last. -/
theorem takeResult_of_pushed_receiver (hs : s.refs.HasReceiver env.table r) (x : Ref) :
    takeResult env { s with refs := s.refs.insertAll [x.asExpr s.depth] } =
      .ok [x.asExpr s.depth] s := by
  have hlist : (s.refs.insertAll [x.asExpr s.depth]).isListable env.table = true :=
    hs.isListable_insertAll (by rintro (h | h) <;> cases h)
  change (requireOrder env >>= fun _ => modifyGet fun s =>
    ((s.refs.extractExprs env.table env.ties s.depth).1,
      { s with refs := (s.refs.extractExprs env.table env.ties s.depth).2 })) _ = _
  rw [bind_apply, requireOrder_apply, hlist, if_pos rfl]
  change EStateM.Result.ok _ _ = _
  rw [hs.extractExprs_insertAll]

theorem NamesStatic.methodOf?_eq (h : NamesStatic m callee) : methodOf? (some callee) = some m := by
  cases h <;> rfl

theorem NamesStatic.name_ne (h : NamesStatic m callee) : isReceiverName (nameOf (some callee)) =
    false := by
  cases h <;> assumption

/-- Such a name is interpreted to no effect. -/
theorem NamesStatic.exec (h : NamesStatic m callee)
    (hstatic : (env.table.method m).isStatic = true) (hs : s.refs.HasReceiver env.table r) :
    Interp.exec env (n + 2) (.expr callee) s = .ok () s := by
  cases h with
  | @simple span name hname =>
    change ident env name (some (.method m)) s = _
    simp only [ident, hname, hstatic, Bool.true_or, if_true]
    rfl
  | @member span tspan cls name hname =>
    change select env (Interp.exec env (n + 1)) (some (.typeName tspan cls)) name
      (some (.method m)) s = _
    simp only [select, qualifier?, hname, Bool.false_eq_true, if_false, hstatic, if_true]
    change (takeResult env >>= fun _ => pure ()) s = _
    rw [bind_apply, takeResult_of_hasReceiver hs]
    rfl

/-- An outer instance of the current class that the code names is what `Ref.fromOuter` makes of the
receiver. -/
theorem value_outer {span : Span} {x : Option Expr} {sym : Option Symbol} {outer : ClassId}
    (hs : s.refs.HasReceiver env.table r) (hclass : s.methodClass = some c) (hne : c ≠ outer)
    (henclosed : env.table.isEnclosedBy (some c) (some outer) = true)
    (hname : qualifier? x "this" = some (some outer)) :
    value env (exec env (n + 1)) (some (.select span x "this" sym)) s =
      .ok ((r.fromOuter (some outer)).toList.map (·.asExpr s.depth)) s := by
  have hqualified : qualifiedThis env (some outer) false s = pushOuterThis env outer s := by
    change (if s.methodClass == some outer || (false && _) then pushThis env
      else if env.table.isEnclosedBy s.methodClass (some outer) then pushOuterThis env outer
      else pure () : Interp Unit) s = _
    rw [hclass, henclosed, if_neg (by simpa using hne), if_pos rfl]
  have heval : exec env (n + 1) (.expr (.select span x "this" sym)) s = .ok () { s with
      refs := s.refs.insertAll ((r.fromOuter (some outer)).toList.map (·.asExpr s.depth)) } := by
    change select env (exec env n) x "this" sym s = _
    simp only [select, hname]
    refine hqualified.trans ?_
    change (receivers env >>= fun rs => push (rs.filterMap (·.fromOuter (some outer)))) s = _
    rw [bind_apply, receivers_of_hasReceiver hs]
    cases hr : r.fromOuter (some outer) <;> simp [hr, push] <;> rfl
  change (exec env (n + 1) (.expr (.select span x "this" sym)) >>= fun _ => takeResult env) s = _
  rw [bind_apply, heval]
  cases hr : r.fromOuter (some outer) with
  | none => exact takeResult_of_hasReceiver hs
  | some r' => exact takeResult_of_pushed_receiver hs r'

theorem leakAt_of_quiet (h : s.pending = none) (p : Pos) :
    leakAt (some p) s = .ok () { s with pending := some (p :: s.callStack) } := by
  cases s with
  | mk =>
    cases h
    rfl

/-- Passing an outer instance to unknown code leaks if the receiver leads to that instance and the
instance triggers a leak. -/
theorem passUnknown_outer {aspan : Span} {x : Option Expr} {sym : Option Symbol}
    {outer : ClassId} (hs : s.refs.HasReceiver env.table r)
    (hquiet : s.pending = none) (hclass : s.methodClass = some c) (hne : c ≠ outer)
    (henclosed : env.table.isEnclosedBy (some c) (some outer) = true)
    (hname : qualifier? x "this" = some (some outer)) :
    passUnknown env (exec env (n + 2)) (some (.select aspan x "this" sym)) s =
      .ok () { s with
        pending := if (r.fromOuter (some outer)).any (triggersLeak env)
          then some (aspan.pos :: s.callStack) else none } := by
  have hsame : EStateM.Result.ok () s =
      (.ok () { s with pending := none } : EStateM.Result Stop State Unit) := by
    rw [← hquiet]
  change (value env (exec env (n + 2)) _ >>= fun rs =>
    if rs.any (triggersLeak env) then leakAt (some aspan.pos) else pure ()) s = _
  rw [bind_apply, value_outer hs hclass hne henclosed hname]
  cases r.fromOuter (some outer) with
  | none => exact hsame
  | some r' =>
    have hplace : triggersLeak env (r'.asExpr s.depth) = triggersLeak env r' := rfl
    simp only [Option.toList_some, List.map_cons, List.map_nil, List.any_cons, List.any_nil,
      Bool.or_false, hplace, Option.any_some]
    by_cases htriggers : triggersLeak env r' = true
    · rw [if_pos htriggers, if_pos htriggers]
      exact leakAt_of_quiet hquiet _
    · rw [if_neg htriggers, if_neg htriggers]
      exact hsame

/-- Passing an outer instance to unknown code records a leak exactly if the receiver has the
instance as its outer instance. -/
theorem exec_passOuter {span cspan aspan : Span} {x : Option Expr} {sym : Option Symbol}
    {outer : ClassId} {leak : Option Trail} (hs : s.refs.HasReceiver env.table r)
    (hquiet : s.pending = none) (hclass : s.methodClass = some c) (hne : c ≠ outer)
    (henclosed : env.table.isEnclosedBy (some c) (some outer) = true)
    (hname : qualifier? x "this" = some (some outer)) (hcallee : NamesStatic m callee)
    (hstatic : (env.table.method m).isStatic = true)
    (hctor : (env.table.method m).isConstructor = false)
    (hexempt : isExempt env m = false) (hresolve : resolve? env (some m) [] = .ok none)
    (hleak : leak = if (r.fromOuter (some outer)).any (triggersLeak env)
      then some (aspan.pos :: s.callStack) else none) :
    exec env (n + 4) (.stmt (.exprStmt span (some (.call cspan (some callee)
      [some (.select aspan x "this" sym)])))) s = .ok () { s with pending := leak } := by
  have hsuper : isSuperCall env (some callee) = false := by
    simp [isSuperCall, hcallee.methodOf?_eq, hctor]
  have hreceivers : callReceivers env (exec env (n + 2)) (some callee) s = .ok [] s := by
    change (exec env (n + 2) (.expr callee) >>= fun _ => _) s = _
    rw [bind_apply, hcallee.exec hstatic hs]
    simp only [hcallee.methodOf?_eq, Option.any_some, hstatic, if_true]
    change EStateM.Result.ok _ { s with refs := s.refs.discardExprs s.depth } = _
    rw [hs.discardExprs]
  have hpass : passUnknown env (exec env (n + 2)) (some (.select aspan x "this" sym)) s =
      .ok () { s with pending := leak } :=
    hleak ▸ passUnknown_outer hs hquiet hclass hne henclosed hname
  have hcall : exec env (n + 3) (.expr (.call cspan (some callee)
      [some (.select aspan x "this" sym)])) s = .ok () { s with pending := leak } := by
    change call env (exec env (n + 2)) ⟨some cspan.pos, false⟩ _ _ s = _
    rw [call_eq hsuper, bind_apply, hreceivers]
    simp only [invoke, hcallee.methodOf?_eq, Option.any_some, hexempt, hresolve,
      Bool.false_eq_true, if_false]
    simpa [invokeUnknown] using hpass
  exact exec_exprStmt (t := { s with pending := leak }) hs.discardExprs hs hcall

end Pass

end Interp

end EarlyEscape
