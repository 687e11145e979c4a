import EarlyEscape.Proofs.Interp.Checks
import EarlyEscape.Proofs.Interp.Similar

/-!
# What a function captures

Code that may run at a later time captures the instance if it leaves behind a value that was not
there before.  For a function with an expression as its body this is the value of the expression,
which the function returns.  But values that the code around it has returned before are there
already: a value that comes back among them is not noticed, and the closure is not tracked.

## Main results

* `Interp.lambda_captures_iff` : a closure is tracked exactly if its body has a value that was not
  returned before.
* `Interp.closure_masked` : the same value returned before hides what a closure captures.
-/

namespace EarlyEscape.Interp

section Captures

variable {env : Env} {n : Nat} {span : Span} {params : List VarDecl} {e : Expr}
  {type : Option ClassId} {s s' t : State} {returns : RefSet}

/-- A function whose body is an expression interprets that expression in its own scope, and it looks
at what the expression leaves behind as a returned value. -/
theorem lambda_eq_ok
    (h : exec env (n + 1) (.expr (.lambda span params (some (.expr e)) type)) s = .ok () s') :
    ∃ t, exec env n (.expr e) { s.deferring with depth := s.depth + 1 } = .ok () t ∧
      s' = s.resumed { t with
        refs := (t.refs.replaceExprs t.depth fun r => some r.asReturned).discardExprs t.depth
        depth := t.depth - 1 } type := by
  obtain ⟨s₁, hcode, -, rfl⟩ := deferred_eq_ok.mp h
  obtain ⟨s₂, s₃, hbody, ⟨⟩, rfl⟩ := inScope_eq_ok.mp hcode
  obtain ⟨⟨⟩, t, he, hreturn⟩ := bind_eq_ok.mp hbody
  cases relabelResult_eq_ok hreturn
  exact ⟨t, he, rfl⟩

/-- The place and the references after the body of a function: of the results and the returned
values, only the value of the body was not there before. -/
theorem body_leaves (hreturn : ¬(Node.expr e).Gives .returned) (hs : s.In .idle)
    (hrun : exec env n (.expr e) { s with depth := s.depth + 1 } = .ok () t) :
    t.depth = s.depth + 1 ∧ ∀ r ∈ t.refs, r ∉ s.refs → isLeftBehind s.depth r = true →
      r.role = .expr (s.depth + 1) := by
  obtain ⟨htidy, hframe⟩ := exec_steady (State.In.deeper hs) hrun
  have hdepth : t.depth = s.depth + 1 := hframe.depth
  refine ⟨hdepth, fun r hr hnew hleft => ?_⟩
  cases hrole : r.role with
  | expr k =>
    rw [isLeftBehind, hrole, decide_eq_true_eq] at hleft
    have hle : k ≤ t.depth := htidy r hr k hrole
    by_cases hk : k = s.depth + 1
    · rw [hk]
    · have hlt : k < s.depth + 1 := by omega
      exact absurd ((hframe.exprs r k hrole hlt).mp hr) hnew
  | returned =>
    have hgives := hframe.added r hr (by simp [Ref.kind, hrole, Ref.Role.kind]) hnew
    rw [hrole] at hgives
    exact absurd hgives hreturn
  | _ => simp [isLeftBehind, hrole] at hleft

/-- The closure is tracked exactly if the value of the body, as a returned value, was not there
before. -/
theorem mem_resumed_iff (hreturn : ¬(Node.expr e).Gives .returned) (hs : s.In .idle)
    (hrun : exec env n (.expr e) { s.deferring with depth := s.depth + 1 } = .ok () t) :
    ⟨.expr s.depth, type, .indirect⟩ ∈ (s.resumed { t with
        refs := (t.refs.replaceExprs t.depth fun r => some r.asReturned).discardExprs t.depth
        depth := t.depth - 1 } type).refs ↔
      ∃ r ∈ t.refs, r.role = .expr (s.depth + 1) ∧ r.asReturned ∉ s.refs := by
  obtain ⟨hdepth, hleaves⟩ := body_leaves (s := s.deferring) hreturn hs hrun
  have houtside : (⟨.expr s.depth, type, .indirect⟩ : Ref) ∉ s.refs := fun hmem =>
    absurd (hs _ hmem s.depth rfl) (Int.lt_irrefl _)
  have hback : t.depth - 1 = s.depth := by
    change t.depth = s.depth + 1 at hdepth
    omega
  change _ ∈ State.captured _ s.refs type ↔ _
  unfold State.captured
  simp only [List.any_eq_true, ← RefSet.mem_def, Bool.and_eq_true, decide_eq_true_eq, hback]
  constructor
  · intro hmem
    split at hmem
    · next hcaptures =>
      obtain ⟨r, hr, hleft, hnew⟩ := hcaptures
      obtain ⟨hr, hscope⟩ := RefSet.mem_discardExprs.mp hr
      rcases RefSet.mem_replaceExprs.mp hr with ⟨x, hx, hrole, rfl⟩ | ⟨hr, -⟩
      · exact ⟨x, hx, hrole.trans (congrArg Ref.Role.expr hdepth), hnew⟩
      · have hrole := hleaves r hr hnew hleft
        exact absurd (hrole.trans (congrArg Ref.Role.expr hdepth).symm) hscope
    · exact absurd hmem houtside
  · rintro ⟨r, hr, hrole, hnew⟩
    rw [if_pos]
    · exact RefSet.mem_insert.mpr (.inl rfl)
    · refine ⟨r.asReturned, RefSet.mem_discardExprs.mpr ⟨RefSet.mem_replaceExprs.mpr
        (.inl ⟨r, hr, hrole.trans (congrArg Ref.Role.expr hdepth).symm, rfl⟩), nofun⟩, rfl, hnew⟩

end Captures

/-- What a function captures.  Let the body of a function be an expression that returns nothing
itself, and let the function be interpreted in a state without results, in which the values
`returns` have been returned before.  The closure is tracked exactly if the body has a value that
does not come back among them.  If no other function stands inside the body, then what has been
returned before has no influence on its value. -/
theorem lambda_captures_iff (env : Env) (fuel : Nat) (span : Span) (params : List VarDecl)
    (e : Expr) (type : Option ClassId) (s s' : State) (returns : RefSet)
    (hreturn : ¬(Node.expr e).Gives .returned) (hs : s.In .idle)
    (hquiet : ∀ r ∈ s.refs, r.kind ≠ .returned) (hreturns : ∀ r ∈ returns, r.kind = .returned)
    (hrun : exec env fuel (.expr (.lambda span params (some (.expr e)) type)) (s.plus returns) =
      .ok () s') :
    (∃ n t, exec env n (.expr e) { s.plus returns with depth := s.depth + 1 } = .ok () t ∧
      (⟨.expr s.depth, type, .indirect⟩ ∈ s'.refs ↔
        ∃ r ∈ t.refs, r.role = .expr (s.depth + 1) ∧ r.asReturned ∉ returns)) ∧
    ((∀ span params body type, ¬(Node.expr e).Within (.expr (.lambda span params body type))) →
      ∃ n t, exec env n (.expr e) { s with depth := s.depth + 1 } = .ok () t ∧
        (⟨.expr s.depth, type, .indirect⟩ ∈ s'.refs ↔
          ∃ r ∈ t.refs, r.role = .expr (s.depth + 1) ∧ r.asReturned ∉ returns)) := by
  obtain _ | n := fuel
  · cases hrun
  obtain ⟨t, hbody, hs'⟩ := lambda_eq_ok hrun
  have hin : (s.plus returns).In .idle := by
    intro r hr k hk
    rcases State.mem_plus.mp hr with hr | hr
    · exact hs r hr k hk
    · cases (hreturns r hr).symm.trans (Ref.kind_of_role_expr hk)
  -- a returned value that is not among `returns` was not there before
  have hiff : ⟨.expr s.depth, type, .indirect⟩ ∈ s'.refs ↔
      ∃ r ∈ t.refs, r.role = .expr (s.depth + 1) ∧ r.asReturned ∉ returns := by
    rw [hs']
    refine (mem_resumed_iff hreturn hin hbody).trans (exists_congr fun r => and_congr_right fun _ =>
      and_congr_right fun _ => not_congr ?_)
    exact State.mem_plus.trans (or_iff_right fun hr => hquiet _ hr rfl)
  -- the value is the same from every state that is similar to the one at the start of the body
  have hvalue (extra : RefSet) (hignores : (Node.expr e).Ignores extra) {u : State}
      (hsim : Similar false extra { (s.plus returns).deferring with depth := s.depth + 1 } u) :
      ∃ m t, exec env m (.expr e) u = .ok () t ∧
        (⟨.expr s.depth, type, .indirect⟩ ∈ s'.refs ↔
          ∃ r ∈ t.refs, r.role = .expr (s.depth + 1) ∧ r.asReturned ∉ returns) := by
    obtain ⟨t', hbody', hsim'⟩ := exec_forgets n (n + extra.size) false extra (.expr e) _ u
      (Nat.le_refl _) hignores.overlooks hsim () t hbody
    refine ⟨_, t', hbody', hiff.trans (exists_congr fun r => ?_)⟩
    simp only [← and_assoc]
    refine and_congr_left fun _ => and_congr_left fun hrole => ?_
    refine (hsim'.refs r).trans (or_iff_left fun hr => ?_)
    rcases (hignores r hr).1 with hk | hk <;> cases hk.symm.trans (Ref.kind_of_role_expr hrole)
  refine ⟨hvalue .empty (Node.ignores_empty _)
    ⟨fun r => by simp [State.deferring], rfl, rfl, rfl, rfl, rfl⟩,
    fun hfunction => hvalue returns (fun r hr => ⟨.inl (hreturns r hr), ?_⟩)
      ⟨fun r => State.mem_plus, rfl, rfl, rfl, rfl, rfl⟩⟩
  intro c hc hnotices
  rw [hreturns r hr] at hnotices
  unfold Node.Notices at hnotices
  split at hnotices
  · next heq => cases heq
  · exact hfunction _ _ _ _ hc
  · exact hnotices

/-! ### A value that was returned before -/

/-- The function `() -> this`. -/
def thisFunction : Expr := .lambda default [] (some (.expr (.ident default "this" none))) none

/-- The surroundings without any class, method or variable. -/
def bareEnv : Env := { table := {}, catalog := {} }

theorem gives_nothing_ident {span : Span} {name : String} {sym : Option Symbol} {role : Ref.Role} :
    ¬(Node.expr (.ident span name sym)).Gives role := by
  rintro ⟨c, hruns, hgives⟩
  rcases Relation.ReflTransGen.cases_head hruns with rfl | ⟨d, hd, -⟩
  · cases hgives with
    | target h => nomatch h
  · exact absurd hd.2 List.not_mem_nil

/-- If a value that may contain the instance has been returned before, but not the instance itself,
then the closure of `() -> this` is tracked. -/
theorem closure_tracked :
    ∃ s', exec bareEnv 3 (.expr thisFunction)
        ((State.start none).plus (.ofList [⟨.returned, none, .indirect⟩])) = .ok () s' ∧
      ⟨.expr 0, none, .indirect⟩ ∈ s'.refs := by
  refine ⟨_, rfl, ?_⟩
  obtain ⟨⟨n, t, hbody, hiff⟩, -⟩ := lambda_captures_iff bareEnv 3 default []
    (.ident default "this" none) none (.start none) _ (.ofList [⟨.returned, none, .indirect⟩])
    gives_nothing_ident (State.start_in_idle none) (by decide) (by decide) rfl
  obtain _ | n := n
  · cases hbody
  cases hbody
  exact hiff.mpr ⟨⟨.expr 1, none, .direct⟩, by decide, rfl, by decide⟩

/-- If the instance itself has been returned before, then the closure of `() -> this` is not
tracked, although the body of the function has a value. -/
theorem closure_masked :
    (∃ s', exec bareEnv 3 (.expr thisFunction)
        ((State.start none).plus (.ofList [⟨.returned, none, .direct⟩])) = .ok () s' ∧
      ∀ r ∈ s'.refs, r.kind ≠ .expr) ∧
    ∃ t, exec bareEnv 3 (.expr (.ident default "this" none)) { State.start none with depth := 1 } =
      .ok () t ∧ ∃ r ∈ t.refs, r.role = .expr 1 :=
  ⟨⟨_, rfl, by decide⟩, _, rfl, ⟨.expr 1, none, .direct⟩, by decide, rfl⟩

end EarlyEscape.Interp
