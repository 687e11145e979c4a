import EarlyEscape.Proofs.Interp.Plain

/-!
# Loops over the elements of one of two values

A loop over the elements of `c ? a : b` stands for that over the elements of `a` and for that over
the elements of `b`.  Its value has the references of both, and it holds all that the other two
hold.  The calls that the loop makes are an exception.  Their methods are those of the first
reference that is no array, and with these the calls are made for all the references.  A value whose
methods are harmless therefore hides the unknown methods of another one.  It hides nothing if all
values are iterated alike.

## Main definitions

* `Interp.traversed` : the values that the calls of a for-each loop give.
* `Interp.IteratedAlike` : it does not matter which of the references is asked for its methods.

## Main results

* `Interp.grows_value_conditional` : a value is a part of that of a conditional expression.
* `Interp.grows_traversed` : values that are iterated alike give the more elements the more they
  are.
* `Interp.forEach_conditional_keeps_leaks` : a conditional expression hides no leak of a loop if all
  its values are iterated alike.
* `Interp.harmless_hides_unknown` : else it can do so.
-/

namespace EarlyEscape

namespace Interp

attribute [local simp] Task.node Node.children Node.exprChildren Node.stmtChildren

/-! ### Values of expressions -/

section Values

variable {env : Env} {n : Nat} {s s' : State} {rs : List Ref}

/-- The value of an expression was its result. -/
theorem value_role {e : Option Expr} (hin : s.In .idle)
    (h : value env (exec env n) e s = .ok rs s') : ∀ r ∈ rs, r.role = .expr s.depth := by
  obtain ⟨⟨⟩, s₁, heval, htake⟩ := bind_eq_ok.mp h
  have hdepth : s₁.depth = s.depth := by
    cases e with
    | none =>
      cases heval
      rfl
    | some e => exact (exec_steady hin heval).2.depth
  exact fun r hr => hdepth ▸ ((takeResult_eq_ok htake).1 r).mp hr |>.2

/-- The values of a cast have its type. -/
theorem value_cast_type {span : Span} {c : ClassId} {x : Option Expr}
    (h : value env (exec env n) (some (.cast span (some c) x)) s = .ok rs s') :
    ∀ r ∈ rs, r.type = some c := by
  obtain ⟨⟨⟩, s₁, hcast, htake⟩ := bind_eq_ok.mp h
  obtain _ | n := n
  · cases hcast
  obtain ⟨⟨⟩, s₂, -, hretype⟩ := bind_eq_ok.mp hcast
  cases relabelResult_eq_ok hretype
  intro r hr
  obtain ⟨hr, hrole⟩ := ((takeResult_eq_ok htake).1 r).mp hr
  rcases RefSet.mem_replaceExprs.mp hr with ⟨x, -, -, rfl⟩ | ⟨-, hne⟩
  · rfl
  · exact absurd hrole hne

/-- What is pushed in a state without a result is the next value. -/
theorem takeResult_pushed {ra rb : List Ref} (hin : s.In .idle)
    (hra : ∀ r ∈ ra, r.role = .expr s.depth) (hrb : ∀ r ∈ rb, r.role = .expr s.depth)
    (h : (push ra >>= fun _ => push rb >>= fun _ => takeResult env) s = .ok rs s') :
    (∀ r, r ∈ rs ↔ r ∈ ra ∨ r ∈ rb) ∧
      ∃ refs, (∀ r, r ∈ refs ↔ r ∈ s.refs) ∧ s' = { s with refs } := by
  obtain ⟨⟨⟩, s₁, ⟨⟩, h⟩ := bind_eq_ok.mp h
  obtain ⟨⟨⟩, s₂, ⟨⟩, h⟩ := bind_eq_ok.mp h
  obtain ⟨hrs, rfl⟩ := takeResult_eq_ok h
  have hmap {l : List Ref} (hl : ∀ r ∈ l, r.role = .expr s.depth) :
      l.map (·.asExpr s.depth) = l :=
    (List.map_congr_left fun r hr => show r.asExpr s.depth = id r from
      Ref.ext (hl r hr).symm rfl rfl).trans (List.map_id l)
  have hmem (r : Ref) : r ∈ (s.refs.insertAll (ra.map (·.asExpr s.depth))).insertAll
      (rb.map (·.asExpr s.depth)) ↔ r ∈ rb ∨ r ∈ ra ∨ r ∈ s.refs := by
    rw [RefSet.mem_insertAll, RefSet.mem_insertAll, hmap hra, hmap hrb]
  refine ⟨fun r => (hrs r).trans ?_, _, fun r => RefSet.mem_discardExprs.trans ?_, rfl⟩
  · refine (and_congr_left' (hmem r)).trans ⟨?_, ?_⟩
    · rintro ⟨hr | hr | hr, hrole⟩
      · exact .inr hr
      · exact .inl hr
      · exact absurd (hin r hr _ hrole) (Int.lt_irrefl _)
    · rintro (hr | hr)
      · exact ⟨.inr (.inl hr), hra r hr⟩
      · exact ⟨.inl hr, hrb r hr⟩
  · refine (and_congr_left' (hmem r)).trans ⟨?_, fun hr => ⟨.inr (.inr hr), fun hrole => ?_⟩⟩
    · rintro ⟨hr | hr | hr, hne⟩
      · exact absurd (hrb r hr) hne
      · exact absurd (hra r hr) hne
      · exact hr
    · exact absurd (hin r hr _ hrole) (Int.lt_irrefl _)

/-- The value of a conditional expression is that of both its branches. -/
theorem value_conditional {span : Span} {c yes no : Option Expr} (hin : s.In .idle)
    (h : value env (exec env n) (some (.conditional span c yes no)) s = .ok rs s') :
    ∃ m s₁ s₂ s₃ ra rb, evalDrop (exec env m) c s = .ok () s₁ ∧
      value env (exec env m) yes s₁ = .ok ra s₂ ∧ value env (exec env m) no s₂ = .ok rb s₃ ∧
      (∀ r, r ∈ rs ↔ r ∈ ra ∨ r ∈ rb) ∧
      ∃ refs, (∀ r, r ∈ refs ↔ r ∈ s₃.refs) ∧ s' = { s₃ with refs } := by
  obtain ⟨⟨⟩, u, hexec, htake⟩ := bind_eq_ok.mp h
  obtain _ | m := n
  · cases hexec
  obtain ⟨⟨⟩, s₁, hc, hexec⟩ := bind_eq_ok.mp hexec
  obtain ⟨ra, s₂, hyes, hexec⟩ := bind_eq_ok.mp hexec
  obtain ⟨rb, s₃, hno, hpush⟩ := bind_eq_ok.mp hexec
  obtain ⟨hin₁, -⟩ := (program_evalDrop (w := World.all env.table env.catalog) (E := .all)
    Effects.coversExpr_all).steady hin hc
  obtain ⟨hin₂, hframe₂⟩ := (program_value (w := World.all env.table env.catalog) (E := .all)
    Effects.coversExpr_all).steady hin₁ hyes
  obtain ⟨hin₃, hframe₃⟩ := (program_value (w := World.all env.table env.catalog) (E := .all)
    Effects.coversExpr_all).steady hin₂ hno
  have hra : ∀ r ∈ ra, r.role = .expr s₃.depth := fun r hr =>
    (value_role hin₁ hyes r hr).trans (by rw [hframe₃.depth, hframe₂.depth])
  have hrb : ∀ r ∈ rb, r.role = .expr s₃.depth := fun r hr =>
    (value_role hin₂ hno r hr).trans (by rw [hframe₃.depth])
  have hlast : (push ra >>= fun _ => push rb >>= fun _ => takeResult env) s₃ = .ok rs s' := by
    obtain ⟨⟨⟩, s₄, hpa, hpb⟩ := bind_eq_ok.mp hpush
    exact bind_eq_ok.mpr ⟨(), s₄, hpa, bind_eq_ok.mpr ⟨(), u, hpb, htake⟩⟩
  obtain ⟨hrs, hrefs⟩ := takeResult_pushed hin₃ hra hrb hlast
  exact ⟨m, s₁, s₂, s₃, ra, rb, hc, hyes, hno, hrs, hrefs⟩

end Values

section Iteration

variable {env : Env} {rank : DeclId → Nat} {code : Nat → Node → Prop} {k n m : Nat} {p : Phase}

/-- A step that only adds leads to a state above one from which nothing is done. -/
theorem grows_adds {α β : Type} {E : Effects} {y : Mode → Interp β} {V : β → Prop}
    {R : α → β → Prop} {a : α} (hy : Program (World.all env.table env.catalog) E .idle y V .idle)
    (htakes : ∀ kind, ¬E.takes kind) (hR : ∀ b, R a b) :
    Grows rank k .idle (pure a)
      (y ((World.all env.table env.catalog).mode env.checked env.guard env.ties m)) R .idle := by
  rintro s u hsu hin - _ b _ u' ⟨⟩ hu
  obtain ⟨hin', hframe⟩ := hy.steady hin hu
  exact ⟨hR b, hsu.trans (hframe.under hin htakes), hin', hframe.toAll⟩

/-- The effects of code that takes nothing. -/
def Effects.adding : Effects := { Effects.all with takes := fun _ => False }

theorem PlainCode.covers_adding (hcode : PlainCode env rank code) {e : Option Expr}
    (h : ∀ x, e = some x → code k (.expr x)) : Effects.adding.CoversExpr e :=
  fun x hx _ ht =>
    ⟨trivial, fun _ _ => trivial, hcode.not_takes (ht ▸ h x hx), fun _ _ => trivial⟩

/-- The value of a conditional expression holds those of its branches. -/
theorem grows_value_conditional (hcode : PlainCode env rank code) (hguard : env.guard = .running)
    {span : Span} {c yes no x : Option Expr} (hn : code k (.expr (.conditional span c yes no)))
    (hx : x = yes ∨ x = no) :
    Grows rank k .idle (value env (exec env n) x)
      (value env (exec env m) (some (.conditional span c yes no))) (fun rs rs' => rs ⊆ rs')
      .idle := by
  have hc : ∀ e, c = some e → code k (.expr e) := fun e he =>
    hcode.child k _ _ hn ⟨rfl, by simp [he]⟩
  have hyes : ∀ e, yes = some e → code k (.expr e) := fun e he =>
    hcode.child k _ _ hn ⟨rfl, by simp [he]⟩
  have hno : ∀ e, no = some e → code k (.expr e) := fun e he =>
    hcode.child k _ _ hn ⟨rfl, by simp [he]⟩
  intro s u hsu hin habove rs rs' s' u' hs hu
  obtain ⟨hin', hframe⟩ := (program_value (w := World.all env.table env.catalog) (E := .all)
    Effects.coversExpr_all).steady hin hu
  suffices hmem : rs ⊆ rs' ∧ s'.Under u' from ⟨hmem.1, hmem.2, hin', hframe⟩
  obtain ⟨l, u₁, u₂, u₃, ra, rb, hdrop, hra, hrb, hrs', refs, hrefs, rfl⟩ :=
    value_conditional hin hu
  have hwalk := exec_grows hcode hguard n l
  have hadds {e : Option Expr} (he : ∀ x, e = some x → code k (.expr x)) :
      Grows rank k .idle (pure ()) (value env (exec env l) e) (fun _ _ => True) .idle :=
    grows_adds (program_value (hcode.covers_adding he)) (fun _ => id) fun _ => trivial
  obtain ⟨-, hsu₁, hin₁, hframe₁⟩ := grows_adds (R := fun _ _ => True) (a := ())
    (program_evalDrop (hcode.covers_adding hc)) (fun _ => id) (fun _ => trivial) s u hsu hin habove
    () () s u₁ rfl hdrop
  have habove₁ := habove.of_running hframe₁.running
  have hsame : u₃.Under { u₃ with refs } :=
    ⟨fun r hr => (hrefs r).mpr hr, rfl, rfl, id⟩
  rcases hx with rfl | rfl
  · obtain ⟨hsub, hsu₂, hin₂, hframe₂⟩ := grows_value hwalk hyes s u₁ hsu₁ hin₁ habove₁ rs ra s' u₂
      hs hra
    obtain ⟨-, hsu₃, -, -⟩ := hadds hno s' u₂ hsu₂ hin₂ (habove₁.of_running hframe₂.running) () rb
      s' u₃ rfl hrb
    exact ⟨fun r hr => (hrs' r).mpr (.inl (hsub hr)), hsu₃.trans hsame⟩
  · obtain ⟨-, hsu₂, hin₂, hframe₂⟩ := hadds hyes s u₁ hsu₁ hin₁ habove₁ () ra s u₂ rfl hra
    obtain ⟨hsub, hsu₃, -, -⟩ := grows_value hwalk hno s u₂ hsu₂ hin₂
      (habove₁.of_running hframe₂.running) rs rb s' u₃ hs hrb
    exact ⟨fun r hr => (hrs' r).mpr (.inr (hsub hr)), hsu₃.trans hsame⟩

/-! ### Calls of a loop -/

/-- The values that the calls of a for-each loop give. -/
def traversed (env : Env) (walk : Walk) (site : Site) (rs : List Ref) : Interp (List Ref) :=
  match iterationOf? env rs with
  | none => pure []
  | some it => iterate env walk site it (iterables env rs) >>= advance env walk site it

theorem program_traversed {w : World} {E : Effects} (hw : w.Closed) {site : Site} {rs : List Ref}
    (hrs : ∀ r ∈ rs, w.Tracks r) (hp : ∀ m rs, E.Permits w.base site.pos m [] rs) :
    Program w E .idle (fun m => traversed (w.env m) m.walk site rs)
      (fun values => ∀ r ∈ values, w.Tracks r) .idle := by
  have hnone : Program w E .idle (fun _ => pure ([] : List Ref))
      (fun values => ∀ r ∈ values, w.Tracks r) .idle := .pure (by simp)
  cases hit : iterationOf? w.base rs with
  | none =>
    refine hnone.of_eq fun m => ?_
    rw [traversed, show iterationOf? (w.env m) rs = none from hit]
  | some it =>
    have hr : w.Receivers (iterables w.base rs) := World.receivers_iterables hrs
    refine ((program_iterate hw it hr (hp _ _)).bind fun its hits =>
      program_advance hw it hits fun _ _ => hp _ _).of_eq fun m => ?_
    rw [traversed, show iterationOf? (w.env m) rs = some it from hit]
    rfl

theorem forEachPass_traversed (env : Env) (walk : Walk) (d : Option VarDecl) (x : Option Expr)
    (body : Option Stmt) :
    forEachPass env walk d x body = value env walk x >>= fun rs =>
      traversed env walk (.ofExpr? x) rs >>= fun values =>
        assignElements walk d body (arrayElements env rs ++ values) := by
  rw [forEachPass_eq]
  refine congrArg (value env walk x >>= ·) (funext fun rs => ?_)
  unfold passOver traversed
  cases iterationOf? env rs with
  | none => simp only [pure_bind, List.append_nil]
  | some it =>
    simp only [bind_assoc]
    rfl

/-- The values of the list are iterated alike: none of them has methods for it, or all have the same
ones and their calls do not depend on the receivers, or the first call hands all of them to unknown
code. -/
inductive IteratedAlike (env : Env) (rank : DeclId → Nat) (code : Nat → Node → Prop) (k : Nat)
    (rs : List Ref) : Prop
  | without (h : ∀ r ∈ rs, iteration? env.table r.type = none)
  | same (it : Iteration) (h : ∀ r ∈ rs, iteration? env.table r.type = some it)
      (hcalls : ∀ mth, mth = it.iterator ∨ mth = it.hasNext ∨ mth = it.next →
        PlainCall env rank code k (some mth))
  | unknown (h : ∀ r ∈ rs, ∃ it, iteration? env.table r.type = some it ∧
      HandsOver env (some it.iterator))

/-- A call without receivers and arguments that creates no instance does nothing. -/
theorem invoke_nothing_eq_ok {walk : Walk} {site : Site} (hsite : site.isCreation = false)
    {mth : Option MethodId} {s s' : State} (h : invoke env walk site mth [] [] s = .ok () s') :
    s' = s := by
  rcases invoke_eq_ok h with ⟨-, rfl⟩ | ⟨-, h⟩ | ⟨e, body, -, h⟩
  · rfl
  · simp only [invokeUnknown, hsite] at h
    cases h
    rfl
  · cases h
    rfl

section Calls

variable {site site' : Site} (hsite : site.isCreation = false) (hsite' : site'.isCreation = false)

/-- In a state without a result there is no value. -/
theorem grows_takeNothing :
    Grows rank k .idle (takeResult env) (takeResult env) (fun rs rs' => rs = [] ∧ rs' = [])
      .idle := by
  intro s u hsu hin habove rs rs' s' u' hs hu
  obtain ⟨hrs, hrest⟩ := grows_takeResult (k := k) s u hsu hin habove rs rs' s' u' hs hu
  have hnone : rs' = [] := List.eq_nil_iff_forall_not_mem.mpr fun r hr => by
    obtain ⟨hr, hrole⟩ := ((takeResult_eq_ok hu).1 r).mp hr
    exact Int.lt_irrefl _ (hin r hr _ hrole)
  exact ⟨⟨List.subset_nil.mp (hnone ▸ hrs), hnone⟩, hrest⟩

include hsite hsite'

/-- Calls without receivers and arguments do nothing, whatever their methods are. -/
theorem grows_invokeNothing {mth mth' : Option MethodId} :
    Grows rank k p (invoke env (exec env n) site mth [] [])
      (invoke env (exec env m) site' mth' [] []) (fun _ _ => True) p := by
  intro s u hsu hin _ _ _ s' u' hs hu
  cases invoke_nothing_eq_ok hsite hs
  cases invoke_nothing_eq_ok hsite' hu
  exact ⟨trivial, hsu, hin, .refl⟩

/-- Calls that hand their receivers to unknown code may be calls of two methods. -/
theorem grows_handOver {mth mth' : Option MethodId} (h : HandsOver env mth)
    (h' : HandsOver env mth') {rs rs' : List Ref} (hrs : rs ⊆ rs') :
    Grows rank k p (invoke env (exec env n) site mth [] rs)
      (invoke env (exec env m) site' mth' [] rs') (fun _ _ => True) p := by
  have hunknown : Grows rank k p (invokeUnknown env (exec env n) site [] rs)
      (invokeUnknown env (exec env m) site' [] rs') (fun _ _ => True) p := by
    simp only [invokeUnknown, hsite, hsite']
    exact grows_leakThen (any_triggersLeak_of_subset hrs) _ _ (.pure trivial)
  exact fun s u hsu hin habove a b s' u' hs hu =>
    hunknown s u hsu hin habove a b s' u' (h.invoke hs) (h'.invoke hu)

/-- Without receivers there are no values, whatever the methods are. -/
theorem grows_advanceNothing {it it' : Iteration} :
    Grows rank k p (advance env (exec env n) site it []) (advance env (exec env m) site' it' [])
      (fun vs vs' => vs ⊆ vs') .idle :=
  (grows_invokeNothing hsite hsite').bind fun _ _ _ => grows_dropResult.bind fun _ _ _ =>
    (grows_invokeNothing hsite hsite').bind fun _ _ _ => grows_takeResult

/-- Iterators from unknown code are not known. -/
theorem grows_iterateUnknown {it it' : Iteration} (h : HandsOver env (some it.iterator))
    (h' : HandsOver env (some it'.iterator)) {rs rs' : List Ref} (hrs : rs ⊆ rs') :
    Grows rank k .idle (iterate env (exec env n) site it rs)
      (iterate env (exec env m) site' it' rs')
      (fun its its' => its = [] ∧ its' = []) .idle := by
  refine (grows_handOver hsite hsite' h h' hrs).bind fun _ _ _ => grows_takeNothing.bind ?_
  rintro _ _ ⟨rfl, rfl⟩
  exact .pure ⟨rfl, rfl⟩

omit hsite hsite' in
theorem kind_asThis {rs : List Ref} : ∀ r ∈ rs.map (·.asThis), r.kind = .this := by
  intro r hr
  obtain ⟨x, -, rfl⟩ := List.mem_map.mp hr
  rfl

section Plain

variable (hcode : PlainCode env rank code) (hguard : env.guard = .running)
  (hwalk : Walks env rank code n m)
include hcode hguard hwalk

/-- A method whose calls do not depend on the receivers is called for all of them at once. -/
theorem grows_invokePlain {mth : MethodId} (hm : PlainCall env rank code k (some mth))
    {rs rs' : List Ref} (hrs : rs ⊆ rs') (hthis : ∀ r ∈ rs', r.kind = .this) :
    Grows rank k .idle (invoke env (exec env n) site (some mth) [] rs)
      (invoke env (exec env m) site' (some mth) [] rs') (fun _ _ => True) .busy :=
  grows_invoke hcode hguard hwalk (hsite'.trans hsite.symm) hm
    (fun _ ha => absurd ha List.not_mem_nil) hrs hthis

theorem grows_iterate {it : Iteration} (hm : PlainCall env rank code k (some it.iterator))
    {rs rs' : List Ref} (hrs : rs ⊆ rs') (hthis : ∀ r ∈ rs', r.kind = .this) :
    Grows rank k .idle (iterate env (exec env n) site it rs) (iterate env (exec env m) site' it rs')
      (fun its its' => its ⊆ its' ∧ ∀ r ∈ its', r.kind = .this) .idle :=
  (grows_invokePlain hsite hsite' hcode hguard hwalk hm hrs hthis).bind fun _ _ _ =>
    grows_takeResult.bind fun _ _ h => .pure ⟨List.map_subset _ h, kind_asThis⟩

theorem grows_advance {it : Iteration} (hhasNext : PlainCall env rank code k (some it.hasNext))
    (hnext : PlainCall env rank code k (some it.next)) {rs rs' : List Ref} (hrs : rs ⊆ rs')
    (hthis : ∀ r ∈ rs', r.kind = .this) :
    Grows rank k .idle (advance env (exec env n) site it rs) (advance env (exec env m) site' it rs')
      (fun vs vs' => vs ⊆ vs') .idle :=
  (grows_invokePlain hsite hsite' hcode hguard hwalk hhasNext hrs hthis).bind fun _ _ _ =>
    grows_dropResult.bind fun _ _ _ =>
    (grows_invokePlain hsite hsite' hcode hguard hwalk hnext hrs hthis).bind fun _ _ _ =>
    grows_takeResult

/-- Values that are iterated alike give the more elements the more they are. -/
theorem grows_traversed {rs rs' : List Ref} (hrs : rs ⊆ rs')
    (halike : IteratedAlike env rank code k (iterables env rs')) :
    Grows rank k .idle (traversed env (exec env n) site rs) (traversed env (exec env m) site' rs')
      (fun vs vs' => vs ⊆ vs') .idle := by
  have hsub : iterables env rs ⊆ iterables env rs' := List.map_subset _ (List.filter_subset _ hrs)
  cases hl : iterables env rs with
  | nil =>
    -- the first loop makes no calls, and those of the second one only add
    rw [show traversed env (exec env n) site rs = pure [] by simp [traversed, iterationOf?, hl]]
    exact grows_adds (program_traversed (E := .adding) (World.all_closed _ _)
      (fun _ _ => ⟨trivial, trivial, fun _ _ => trivial⟩) fun _ _ => ⟨fun _ _ => trivial,
        fun _ _ _ => trivial, fun _ _ _ => trivial⟩) (fun _ => id) fun _ => List.nil_subset _
  | cons r l =>
    obtain ⟨r', l', hl'⟩ := List.exists_cons_of_ne_nil
      (List.ne_nil_of_mem (hsub (hl ▸ List.mem_cons_self)))
    have hfirst : iterationOf? env rs = iteration? env.table r.type := by simp [iterationOf?, hl]
    have hfirst' : iterationOf? env rs' = iteration? env.table r'.type := by
      simp [iterationOf?, hl']
    have hr : r ∈ iterables env rs' := hsub (hl ▸ List.mem_cons_self)
    have hr' : r' ∈ iterables env rs' := hl' ▸ List.mem_cons_self
    unfold traversed
    rw [hfirst, hfirst']
    cases halike with
    | without h =>
      rw [h r hr, h r' hr']
      exact .pure (List.nil_subset _)
    | same it h hcalls =>
      rw [h r hr, h r' hr']
      exact (grows_iterate hsite hsite' hcode hguard hwalk (hcalls _ (.inl rfl)) hsub
        kind_asThis).bind fun its its' ⟨hits, hthis⟩ =>
          grows_advance hsite hsite' hcode hguard hwalk (hcalls _ (.inr (.inl rfl)))
            (hcalls _ (.inr (.inr rfl))) hits hthis
    | unknown h =>
      obtain ⟨it, hit, hover⟩ := h r hr
      obtain ⟨it', hit', hover'⟩ := h r' hr'
      rw [hit, hit']
      refine (grows_iterateUnknown hsite hsite' hover hover' hsub).bind ?_
      rintro _ _ ⟨rfl, rfl⟩
      exact grows_advanceNothing hsite hsite'

end Plain

end Calls

/-! ### Loops -/

theorem grows_assignElements (hwalk : Walks env rank code n m) {d : Option VarDecl}
    {body : Option Stmt} (hbody : ∀ x, body = some x → code k (.stmt x)) {rs rs' : List Ref}
    (hrs : rs ⊆ rs') :
    Grows rank k .idle (assignElements (exec env n) d body rs)
      (assignElements (exec env m) d body rs') (fun _ _ => True) .idle := by
  unfold assignElements
  cases d.bind (·.sym) with
  | none => exact grows_runStmt hwalk hbody
  | some v =>
    refine (grows_add (List.map_subset _ hrs) fun r hr => ?_).bind fun _ _ _ =>
      grows_runStmt hwalk hbody
    obtain ⟨x, -, rfl⟩ := List.mem_map.mp hr
    exact nofun

variable (hcode : PlainCode env rank code) (hguard : env.guard = .running) {span : Span}
  {c yes no x : Option Expr} (hx : x = yes ∨ x = no) (hnew : (Site.ofExpr? x).isCreation = false)
  {v : Option VarDecl} {body : Option Stmt}
include hcode hguard hx hnew

/-- A pass over the values of a conditional expression leads from larger states to larger states if
the values are iterated alike. -/
theorem forEachPass_under (hn : code k (.expr (.conditional span c yes no)))
    (hbody : ∀ y, body = some y → code k (.stmt y)) {s u s' u' : State} (hsu : s.Under u)
    (hin : u.In .idle) (habove : u.Above rank k)
    (halike : ∀ rs t, value env (exec env m) (some (.conditional span c yes no)) u = .ok rs t →
      IteratedAlike env rank code k (iterables env rs))
    (hs : forEachPass env (exec env n) v x body s = .ok () s')
    (hu : forEachPass env (exec env m) v (some (.conditional span c yes no)) body u =
      .ok () u') : s'.Under u' := by
  rw [forEachPass_traversed] at hs hu
  obtain ⟨rs, s₁, hvalue, hs⟩ := bind_eq_ok.mp hs
  obtain ⟨rs', u₁, hvalue', hu⟩ := bind_eq_ok.mp hu
  obtain ⟨hrs, hsu₁, hin₁, hframe⟩ := grows_value_conditional hcode hguard hn hx s u hsu hin habove
    rs rs' s₁ u₁ hvalue hvalue'
  have hwalk := exec_grows hcode hguard n m
  have hsite : (Site.ofExpr? (some (.conditional span c yes no))).isCreation = false := rfl
  have hrest := (grows_traversed hnew hsite hcode hguard hwalk hrs (halike rs' u₁ hvalue')).bind
    fun values values' hvalues => grows_assignElements (d := v) hwalk hbody <|
      List.append_subset.mpr
        ⟨List.subset_append_of_subset_left values' (List.filterMap_subset _ hrs),
          List.subset_append_of_subset_right (arrayElements env rs') hvalues⟩
  exact (hrest s₁ u₁ hsu₁ hin₁ (habove.of_running hframe.running) () () s' u' hs hu).2.1

end Iteration

/-- A conditional expression hides no leak of a loop.  Let `for (v : yes)` or `for (v : no)` be
interpreted in a state at the start of a statement, and `for (v : c ? yes : no)` in the same state,
both to their ends, and let the values of the conditional expression be iterated alike in every
pass.  If the code is plain and not running, and the operand of the first loop is no creation of an
instance, then the second loop holds all that the first one holds, and it leaks if the first one
does. -/
theorem forEach_conditional_keeps_leaks (env : Env) (rank : DeclId → Nat)
    (code : Nat → Node → Prop) (k : Nat) (hcode : PlainCode env rank code)
    (hguard : env.guard = .running) (span cspan : Span) (v : Option VarDecl)
    (c yes no x : Option Expr) (body : Option Stmt) (s s' u' : State) (fuel fuel' : Nat)
    (hx : x = yes ∨ x = no) (hnew : (Site.ofExpr? x).isCreation = false)
    (hchild :
      ∀ n ∈ (Node.stmt (.forEach span v (some (.conditional cspan c yes no)) body)).children,
      code k n)
    (hin : s.In .idle) (habove : s.Above rank k)
    (halike : ∀ i t n rs t',
      Unrolls env (.forEach span v (some (.conditional cspan c yes no)) body) i s t →
      value env (exec env n) (some (.conditional cspan c yes no)) t = .ok rs t' →
      IteratedAlike env rank code k (iterables env rs))
    (hrun : exec env fuel (.stmt (.forEach span v x body)) s = .ok () s')
    (hcond : exec env fuel' (.stmt (.forEach span v (some (.conditional cspan c yes no)) body)) s =
      .ok () u') :
    (∀ r ∈ s'.refs, r ∈ u'.refs) ∧ (s'.pending ≠ none → u'.pending ≠ none) := by
  have htakes (kind : Ref.Kind) :
      ¬(Node.stmt (.forEach span v (some (.conditional cspan c yes no)) body)).Takes kind := by
    rintro ⟨hkind, sspan, selector, cases, hruns⟩
    rcases Relation.ReflTransGen.cases_head hruns with heq | ⟨d, ⟨-, hd⟩, hruns⟩
    · cases heq
    · exact hcode.not_takes (hchild d hd) kind ⟨hkind, sspan, selector, cases, hruns⟩
  obtain ⟨n, hs⟩ := exists_looped (by exact trivial) hrun
  obtain ⟨m, hu⟩ := exists_looped (by exact trivial) hcond
  have hunder : s'.Under u' := by
    refine looped_under htakes (.refl s) hin ?_ hs hu
    intro i t s₁ s₂ t₂ hunrolls hst hidle hrunning hpass hpass'
    exact forEachPass_under hcode hguard hx hnew (hchild _ (by simp))
      (fun y hy => hchild _ (by simp [hy])) hst hidle (habove.of_running hrunning)
      (fun rs t' hvalue => halike i t m rs t' hunrolls hvalue) hpass hpass'
  exact ⟨hunder.refs, hunder.pending⟩

/-! ### Two classes that are iterated differently -/

/-- Two classes with a method `iterator` each, the root class apart, and the class of their
iterators.  Nothing is known about their code. -/
def iterationEnv : Env where
  table :=
    { classes := #[{ name := "Object" }, { name := "A", methods := [⟨0⟩] },
        { name := "Z", methods := [⟨1⟩] }, { name := "It", methods := [⟨2⟩, ⟨3⟩] }]
      methods := #[{ name := "iterator", owner := some ⟨1⟩, result := some ⟨3⟩ },
        { name := "iterator", owner := some ⟨2⟩, result := some ⟨3⟩ },
        { name := "hasNext", owner := some ⟨3⟩ }, { name := "next", owner := some ⟨3⟩ }]
      vars := #[{ name := "v" }] }
  catalog := {}

/-- The method of the first class is known and does nothing. -/
def harmlessEnv : Env :=
  { iterationEnv with
    catalog.entries := [(⟨0⟩,
      ⟨default, ⟨⟨0⟩, default, some ⟨0⟩, [], [], some ⟨default, false, []⟩⟩, false, true⟩)] }

/-- The receiver, cast to a class. -/
def thisAs (c : ClassId) : Expr := .cast ⟨5, 5⟩ (some c) (some (.ident default "this" none))

/-- The receiver as an instance of the one class or of the other. -/
def eitherThis : Expr :=
  .conditional ⟨4, 4⟩ (some (.literal default "true")) (some (thisAs ⟨1⟩)) (some (thisAs ⟨2⟩))

/-- A loop without a body over the elements of a value. -/
def loopOver (x : Expr) : Stmt :=
  .forEach default (some ⟨default, some ⟨0⟩, [], none⟩) (some x) none

/-- The nodes that run in a loop over the values of `eitherThis`. -/
def loopNodes : List Node :=
  [.ofVarDecl ⟨default, some ⟨0⟩, [], none⟩, .expr eitherThis, .expr (.literal default "true"),
    .expr (thisAs ⟨1⟩), .expr (thisAs ⟨2⟩), .expr (.ident default "this" none)]

theorem plainCode_loopNodes :
    PlainCode iterationEnv (fun _ => 0) fun _ n => n ∈ loopNodes where
  child _ n c hn hc := by
    have hclosed : ∀ n ∈ loopNodes, ∀ c ∈ n.children, c ∈ loopNodes := by
      simp [loopNodes, eitherThis, thisAs]
    exact hclosed n hn c hc.2
  plain _ n hn := by
    have hplain : ∀ n ∈ loopNodes, n.IsPlain := by
      simp [loopNodes, eitherThis, thisAs, Node.IsPlain]
    exact hplain n hn
  call _ span callee args hn := by simp [loopNodes, eitherThis, thisAs] at hn
  memberRef _ span x name sym kind type hn := by simp [loopNodes, eitherThis, thisAs] at hn
  new _ span outer cls ctor args body hn := by simp [loopNodes, eitherThis, thisAs] at hn
  body _ span outer cls ctor args d hn := by simp [loopNodes, eitherThis, thisAs] at hn

/-- No method is known, so that both methods `iterator` hand their receivers to unknown code. -/
theorem handsOver_iterationEnv {m : MethodId} (h : isExempt iterationEnv m = false) :
    HandsOver iterationEnv (some m) := by
  refine ⟨by simpa using h, fun receiver e hres => ?_⟩
  obtain ⟨s, hs⟩ := exists_mem_of_resolve? hres
  exact absurd hs List.not_mem_nil

/-- A loop over the receiver as an instance of either class leaks as that over the receiver as an
instance of the second one. -/
theorem eitherThis_keeps_leak :
    ∃ s' u', exec iterationEnv 8 (.stmt (loopOver (thisAs ⟨2⟩))) (.start (some ⟨1⟩)) = .ok () s' ∧
      s'.pending = some [5] ∧
      exec iterationEnv 8 (.stmt (loopOver eitherThis)) (.start (some ⟨1⟩)) = .ok () u' ∧
      u'.pending ≠ none := by
  obtain ⟨s', hrun, hleak⟩ := exists_of_endsWith (some [5])
    (exec iterationEnv 8 (.stmt (loopOver (thisAs ⟨2⟩))) (.start (some ⟨1⟩))) (by decide +kernel)
  obtain ⟨u', hcond, -⟩ := exists_of_endsWith (some [4])
    (exec iterationEnv 8 (.stmt (loopOver eitherThis)) (.start (some ⟨1⟩))) (by decide +kernel)
  have hin : (State.start (some ⟨1⟩)).In .idle := by
    rintro r hr d hd
    obtain rfl : r = .start (some ⟨1⟩) := by simpa [State.start] using hr
    cases hd
  refine ⟨s', u', hrun, hleak, hcond, ?_⟩
  refine (forEach_conditional_keeps_leaks iterationEnv _ _ 0 plainCode_loopNodes rfl default ⟨4, 4⟩
    _ _ (some (thisAs ⟨1⟩)) (some (thisAs ⟨2⟩)) _ none _ s' u' 8 8 (.inr rfl) rfl ?_ hin ?_ ?_ hrun
    hcond).2 (by simp [hleak])
  · simp [loopNodes, eitherThis]
  · simp [State.Above, State.start]
  · rintro i t n rs t' ⟨m, hpasses⟩ hvalue
    obtain ⟨hidle, -⟩ := iterated_steady hin.deeper hpasses
    obtain ⟨l, s₁, s₂, s₃, ra, rb, -, hra, hrb, hrs, -⟩ := value_conditional hidle hvalue
    refine .unknown fun r hr => ?_
    obtain ⟨x, hx, rfl⟩ := List.mem_map.mp hr
    rcases (hrs x).mp (List.mem_filter.mp hx).1 with hx | hx
    · have htype : x.type = some ⟨1⟩ := value_cast_type hra x hx
      exact ⟨⟨⟨0⟩, ⟨2⟩, ⟨3⟩⟩, by rw [Ref.asThis, htype]; rfl, handsOver_iterationEnv (by decide)⟩
    · have htype : x.type = some ⟨2⟩ := value_cast_type hrb x hx
      exact ⟨⟨⟨1⟩, ⟨2⟩, ⟨3⟩⟩, by rw [Ref.asThis, htype]; rfl, handsOver_iterationEnv (by decide)⟩

/-- With a harmless method `iterator` the first class hides the unknown one of the second class. -/
theorem harmless_hides_unknown :
    (∃ s', exec harmlessEnv 8 (.stmt (loopOver (thisAs ⟨2⟩))) (.start (some ⟨1⟩)) = .ok () s' ∧
      s'.pending = some [5]) ∧
    ∃ u', exec harmlessEnv 8 (.stmt (loopOver eitherThis)) (.start (some ⟨1⟩)) = .ok () u' ∧
      u'.pending = none :=
  ⟨exists_of_endsWith _ _ (by decide +kernel), exists_of_endsWith _ _ (by decide +kernel)⟩

end Interp

end EarlyEscape
