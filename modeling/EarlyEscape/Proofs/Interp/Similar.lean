import EarlyEscape.Proofs.Interp.Reach

/-!
# States that code cannot tell apart

What a piece of a program does depends on the references as a set and on the place of the running
code, but neither on the order of the references nor on a leak that has been recorded.  Code that
contains no switch with a value passes over yielded values, code that contains no function passes
over returned ones, and all code passes over the values of variables that it does not read: such
code does the same whether they are there or not.

A loop is the one place where further references change the number of steps.  They can hide that a
pass adds references that were there before, so that the loop without them takes more passes, but no
more than there are further references.

## Main definitions

* `Interp.Similar` : states that code cannot tell apart, but for further references in the first.
* `Interp.State.plus` : a state with further references.
* `Interp.SimilarEnds` : from such states two steps come to their ends alike.
* `Node.Ignores`, `Node.Overlooks` : a node passes over further references.

## Main results

* `Interp.Program.similar` : what is put together from basic steps leads from similar states to
  similar states.
* `Interp.exec_forgets` : so does the interpreter, for pieces that pass over the further references.
-/

namespace EarlyEscape

/-! ### Nodes that pass over references -/

/-- The node itself takes notice of values in places of the given sort that were there before: a
switch takes what is yielded, and a function is compared with what is returned. -/
def Node.Notices : Node → Ref.Kind → Prop
  | .expr (.switchExpr ..), .yielded => True
  | .expr (.lambda ..), .returned => True
  | _, _ => False

/-- The references are returned or yielded values, and nothing inside the node takes notice of their
places. -/
def Node.Ignores (n : Node) (extra : RefSet) : Prop :=
  ∀ r ∈ extra, (r.kind = .returned ∨ r.kind = .yielded) ∧ ∀ c, n.Within c → ¬c.Notices r.kind

/-- Nothing inside the node reads the variable. -/
def Node.NeverReads (n : Node) (v : VarId) : Prop := ∀ c, n.Within c → ¬c.ReadsHere v

/-- Nothing inside the node takes notice of the references: they are returned or yielded values, or
the values of variables that nothing inside reads. -/
def Node.Overlooks (n : Node) (extra : RefSet) : Prop :=
  ∀ r ∈ extra, ((r.kind = .returned ∨ r.kind = .yielded) ∧ ∀ c, n.Within c → ¬c.Notices r.kind) ∨
    ∃ v, r.role = .var v ∧ n.NeverReads v

theorem Node.ignores_empty (n : Node) : n.Ignores .empty :=
  fun r hr => absurd hr (RefSet.not_mem_empty r)

theorem Node.Ignores.overlooks {n : Node} {extra : RefSet} (h : n.Ignores extra) :
    n.Overlooks extra :=
  fun r hr => .inl (h r hr)

theorem Node.Ignores.within {n c : Node} {extra : RefSet} (h : n.Ignores extra) (hc : n.Within c) :
    c.Ignores extra :=
  fun r hr => ⟨(h r hr).1, fun d hd => (h r hr).2 d (hc.trans hd)⟩

theorem Node.Below.within {n c : Node} (h : n.Below c) : n.Within c := h.to_reflTransGen

theorem Node.NeverReads.within {n c : Node} {v : VarId} (h : n.NeverReads v) (hc : n.Within c) :
    c.NeverReads v :=
  fun d hd => h d (hc.trans hd)

theorem Node.NeverReads.not_reads {n : Node} {v : VarId} (h : n.NeverReads v) : ¬n.Reads v :=
  fun ⟨c, hruns, hreads⟩ => h c hruns.within hreads

namespace Node.Overlooks

variable {n c : Node} {extra : RefSet} {r : Ref}

theorem within (h : n.Overlooks extra) (hc : n.Within c) : c.Overlooks extra := by
  intro r hr
  rcases h r hr with ⟨hk, hnotices⟩ | ⟨v, hv, hreads⟩
  · exact .inl ⟨hk, fun d hd => hnotices d (hc.trans hd)⟩
  · exact .inr ⟨v, hv, hreads.within hc⟩

theorem not_notices (h : n.Overlooks extra) (hr : r ∈ extra) : ¬n.Notices r.kind := by
  rcases h r hr with ⟨-, hnotices⟩ | ⟨v, hv, -⟩
  · exact hnotices n .refl
  · intro hnotices
    rw [Ref.kind, hv] at hnotices
    unfold Node.Notices at hnotices
    split at hnotices
    · next heq => cases heq
    · next heq => cases heq
    · exact hnotices

theorem not_takes (h : n.Overlooks extra) (hr : r ∈ extra) : ¬n.Takes r.kind := by
  rintro ⟨hk, span, selector, cases, hruns⟩
  refine (h.within hruns.within).not_notices hr ?_
  rw [hk]
  trivial

theorem kind (h : n.Overlooks extra) (hr : r ∈ extra) :
    r.kind = .returned ∨ r.kind = .yielded ∨ ∃ v, r.role = .var v ∧ ¬n.Reads v := by
  rcases h r hr with ⟨hk | hk, -⟩ | ⟨v, hv, hreads⟩
  · exact .inl hk
  · exact .inr (.inl hk)
  · exact .inr (.inr ⟨v, hv, hreads.not_reads⟩)

theorem not_reads (h : n.Overlooks extra) (hr : r ∈ extra) {v : VarId} (hv : r.role = .var v) :
    ¬n.Reads v := by
  rcases h.kind hr with hk | hk | ⟨u, hu, hreads⟩
  · simp [Ref.kind, hv, Ref.Role.kind] at hk
  · simp [Ref.kind, hv, Ref.Role.kind] at hk
  · cases hu.symm.trans hv
    exact hreads

end Node.Overlooks

namespace Interp

/-- Code with the effects passes over the references, now and in deferred code. -/
structure Effects.Ignores (E : Effects) (extra : RefSet) : Prop where
  passes : E.PassesOver extra
  now : ∀ t, E.now t → t.node.Overlooks extra
  later : ∀ n, E.later n → n.Overlooks extra
  defers : ∀ r ∈ extra, ¬(r.kind = .returned ∧ E.defers .returned)

namespace Effects

theorem ignores_empty (E : Effects) : E.Ignores .empty where
  passes r hr := absurd hr (RefSet.not_mem_empty r)
  now t _ := t.node.ignores_empty.overlooks
  later n _ := n.ignores_empty.overlooks
  defers r hr := absurd hr (RefSet.not_mem_empty r)

theorem ignores_ofTask {t : Task} {extra : RefSet} (h : t.node.Overlooks extra) :
    (ofTask t).Ignores extra where
  passes r hr := ⟨h.kind hr, h.not_takes hr⟩
  now t' ht := by
    rcases ht with ht | ⟨s, rfl, rfl⟩
    · exact h.within ht.below.within
    · exact h
  later n hn := h.within hn.within
  defers := by
    rintro r hr ⟨hk, hfunction⟩
    refine h.not_notices hr ?_
    rw [hk]
    change t.IsFunction at hfunction
    unfold Task.IsFunction at hfunction
    split at hfunction
    · trivial
    · trivial
    · cases hfunction

theorem Ignores.deferred {E : Effects} {extra : RefSet} (h : E.Ignores extra) :
    E.deferred.Ignores extra where
  passes r hr := by
    refine ⟨(h.passes r hr).1.imp_right (Or.imp_right ?_), fun ⟨n, hn, ht⟩ =>
      (h.later n hn).not_takes hr ht⟩
    rintro ⟨v, hv, -⟩
    exact ⟨v, hv, fun ⟨n, hn, hreads⟩ => (h.later n hn).not_reads hr hv hreads⟩
  now t ht := h.later t.node ht
  later := h.later
  defers := h.defers

end Effects

/-! ### Similar states -/

/-- Code does the same in both states: they are at the same place and hold the same references, in
whatever order, except that the first one also holds those in `extra`.  Of the leaks recorded
before, the states tell the same, or, if `leaked` is set, the second one has recorded some leak. -/
structure Similar (leaked : Bool) (extra : RefSet) (s s' : State) : Prop where
  refs : ∀ r, r ∈ s.refs ↔ r ∈ s'.refs ∨ r ∈ extra
  depth : s'.depth = s.depth
  methodClass : s'.methodClass = s.methodClass
  callStack : s'.callStack = s.callStack
  running : s'.running = s.running
  pending : if leaked then s'.pending ≠ none else s'.pending = s.pending

/-- From similar states the two steps come to their ends alike. -/
def SimilarEnds {α : Type} (leaked : Bool) (extra : RefSet) (s s' : State) (x x' : Interp α) :
    Prop :=
  ∀ a s₁, x s = .ok a s₁ → ∃ s₁', x' s' = .ok a s₁' ∧ Similar leaked extra s₁ s₁'

namespace Similar

variable {leaked : Bool} {extra : RefSet} {s s' s₁ s₁' : State}

/-- Without further references the sets are the same. -/
theorem refs_iff (h : Similar leaked .empty s s') (r : Ref) : r ∈ s.refs ↔ r ∈ s'.refs := by
  simpa using h.refs r

theorem mem (h : Similar leaked extra s s') {r : Ref} (hr : r ∈ s'.refs) : r ∈ s.refs :=
  (h.refs r).mpr (.inl hr)

theorem trans {leaked₀ : Bool} (h : Similar leaked₀ .empty s s₁) (h' : Similar leaked extra s₁ s')
    (hle : leaked₀ = true → leaked = true) : Similar leaked extra s s' where
  refs r := (h.refs_iff r).trans (h'.refs r)
  depth := h'.depth.trans h.depth
  methodClass := h'.methodClass.trans h.methodClass
  callStack := h'.callStack.trans h.callStack
  running := h'.running.trans h.running
  pending := by
    have hp := h.pending
    have hp' := h'.pending
    cases leaked with
    | true => exact hp'
    | false =>
      cases leaked₀ with
      | true => cases hle rfl
      | false => exact Eq.trans hp' hp

/-- A change of the references alone. -/
theorem withRefs (h : Similar leaked extra s s') {refs refs' : RefSet}
    (hrefs : ∀ r, r ∈ refs ↔ r ∈ refs' ∨ r ∈ extra) :
    Similar leaked extra { s with refs } { s' with refs := refs' } :=
  { h with refs := hrefs }

/-- A change of the scope depth alone. -/
theorem withDepth (h : Similar leaked extra s s') {d d' : Int} (hd : d' = d) :
    Similar leaked extra { s with depth := d } { s' with depth := d' } :=
  { h with depth := hd }

theorem deeper (h : Similar leaked extra s s') :
    Similar leaked extra { s with depth := s.depth + 1 } { s' with depth := s'.depth + 1 } :=
  h.withDepth (congrArg (· + 1) h.depth)

/-- The code of a call sees nothing of the references outside. -/
theorem called (h : Similar leaked extra s s') (pos : Pos) (decl : DeclId) (cls : Option ClassId)
    (seed : RefSet) :
    Similar leaked .empty (s.called pos decl cls seed) (s'.called pos decl cls seed) where
  refs r := (or_iff_left (RefSet.not_mem_empty r)).symm
  depth := rfl
  methodClass := rfl
  callStack := congrArg (pos :: ·) h.callStack
  running := congrArg ((decl, seed.canonical) :: ·) h.running
  pending := h.pending

theorem back (h : Similar leaked extra s s') (h' : Similar leaked .empty s₁ s₁') :
    Similar leaked extra (s.back s₁) (s'.back s₁') :=
  { h with pending := h'.pending }

theorem deferring (h : Similar leaked extra s s') :
    Similar leaked extra s.deferring s'.deferring :=
  { h with }

/-- What deferred code leaves behind is a matter of sets.  Further references are not left behind if
the code returns no values of its own. -/
theorem resumed (h : Similar leaked extra s s') (h' : Similar leaked extra s₁ s₁')
    (hextra : ∀ r ∈ extra, r ∈ s₁'.refs → r ∉ s'.refs → isLeftBehind s₁'.depth r = false)
    (type : Option ClassId) :
    Similar leaked extra (s.resumed s₁ type) (s'.resumed s₁' type) := by
  refine { h' with refs := fun r => ?_ }
  change r ∈ s₁.captured s.refs type ↔ r ∈ s₁'.captured s'.refs type ∨ r ∈ extra
  have hcaptures : (s₁'.refs.toList.any fun r => isLeftBehind s₁'.depth r && decide (r ∉ s'.refs)) =
      s₁.refs.toList.any fun r => isLeftBehind s₁.depth r && decide (r ∉ s.refs) := by
    rw [Bool.eq_iff_iff]
    simp only [List.any_eq_true, ← RefSet.mem_def, Bool.and_eq_true, decide_eq_true_eq, h.refs,
      h'.refs, h'.depth]
    constructor
    · rintro ⟨r, hr, hleft, hnew⟩
      refine ⟨r, .inl hr, hleft, fun hbefore => hbefore.elim hnew fun hmem => ?_⟩
      have := hextra r hmem hr hnew
      rw [h'.depth, hleft] at this
      cases this
    · rintro ⟨r, hr, hleft, hnew⟩
      exact ⟨r, hr.resolve_right fun hmem => hnew (.inr hmem), hleft, fun hbefore =>
        hnew (.inl hbefore)⟩
  unfold State.captured
  rw [hcaptures, h'.depth]
  split
  · simp only [RefSet.mem_insert, h.refs, or_assoc]
  · exact h.refs r

theorem isListable (h : Similar leaked extra s s') {t : SymbolTable}
    (hlist : s.refs.isListable t = true) : s'.refs.isListable t = true :=
  RefSet.isListable_of_subset (fun _ hr => h.mem hr) hlist

end Similar

/-- The state with further references. -/
def State.plus (s : State) (extra : RefSet) : State := { s with refs := s.refs.union extra }

theorem State.mem_plus {s : State} {extra : RefSet} {r : Ref} :
    r ∈ (s.plus extra).refs ↔ r ∈ s.refs ∨ r ∈ extra :=
  RefSet.mem_insertAll.trans or_comm

theorem State.plus_similar (s : State) (extra : RefSet) : Similar false extra (s.plus extra) s :=
  ⟨fun _ => State.mem_plus, rfl, rfl, rfl, rfl, rfl⟩

/-! ### Steps from similar states -/

section Steps

variable {leaked : Bool} {extra : RefSet} {s s' : State} {env : Env}

theorem SimilarEnds.bind {α β : Type} {x x' : Interp α} {f f' : α → Interp β}
    (hx : SimilarEnds leaked extra s s' x x')
    (hf : ∀ a s₁ s₁', x s = .ok a s₁ → Similar leaked extra s₁ s₁' →
      SimilarEnds leaked extra s₁ s₁' (f a) (f' a)) :
    SimilarEnds leaked extra s s' (x >>= f) (x' >>= f') := by
  intro b s₂ hrun
  obtain ⟨a, s₁, hxs, hfs⟩ := bind_eq_ok.mp hrun
  obtain ⟨s₁', hxs', hsim⟩ := hx a s₁ hxs
  obtain ⟨s₂', hfs', hsim'⟩ := hf a s₁ s₁' hxs hsim b s₂ hfs
  exact ⟨s₂', bind_eq_ok.mpr ⟨a, s₁', hxs', hfs'⟩, hsim'⟩

/-- A step on references that does not depend on the further ones. -/
theorem Similar.onRefs (h : Similar leaked extra s s') {α : Type} {ordered : Bool}
    {f : Int → RefSet → α × RefSet}
    (hf : ∀ d refs refs', (∀ r, r ∈ refs ↔ r ∈ refs' ∨ r ∈ extra) →
      (f d refs).1 = (f d refs').1 ∧ ∀ r, r ∈ (f d refs).2 ↔ r ∈ (f d refs').2 ∨ r ∈ extra) :
    SimilarEnds leaked extra s s' (onRefs env ordered f) (onRefs env ordered f) := by
  intro a s₁ hrun
  obtain ⟨hvalue, hrefs⟩ := hf s.depth s.refs s'.refs h.refs
  obtain ⟨hlist, rfl, rfl⟩ := onRefs_eq_ok.mp hrun
  refine ⟨{ s' with refs := (f s.depth s'.refs).2 }, onRefs_eq_ok.mpr ?_, h.withRefs hrefs⟩
  rw [h.depth]
  exact ⟨fun hordered => h.isListable (hlist hordered), hvalue, rfl⟩

theorem Similar.leakAt (h : Similar leaked extra s s') (pos : Option Pos) :
    SimilarEnds leaked extra s s' (leakAt pos) (leakAt pos) := by
  have hp := h.pending
  rintro ⟨⟩ s₁ hrun
  rcases leakAt_eq_ok.mp hrun with ⟨hleak, rfl⟩ | ⟨hquiet, p, rfl, rfl⟩
  · -- there is a leak already, also in the second state
    have hleak' : s'.pending ≠ none := by
      cases leaked with
      | true => exact hp
      | false => exact fun hnone => hleak (Eq.trans (Eq.symm hp) hnone)
    exact ⟨s', leakAt_eq_ok.mpr (.inl ⟨hleak', rfl⟩), h⟩
  · cases leaked with
    | true => exact ⟨s', leakAt_eq_ok.mpr (.inl ⟨hp, rfl⟩), { h with pending := hp }⟩
    | false =>
      refine ⟨_, leakAt_eq_ok.mpr (.inr ⟨Eq.trans hp hquiet, p, rfl, rfl⟩),
        { h with pending := ?_ }⟩
      simp [h.callStack]

theorem SimilarEnds.inScope {leave body body' : Interp Unit}
    (hbody : SimilarEnds leaked extra { s with depth := s.depth + 1 }
      { s' with depth := s'.depth + 1 } body body')
    (hleave : ∀ s s', Similar leaked extra s s' → SimilarEnds leaked extra s s' leave leave) :
    SimilarEnds leaked extra s s' (inScope leave body) (inScope leave body') := by
  rintro ⟨⟩ s₃ hrun
  obtain ⟨s₁, s₂, hrun₁, hrun₂, rfl⟩ := inScope_eq_ok.mp hrun
  obtain ⟨s₁', hrun₁', hsim₁⟩ := hbody () s₁ hrun₁
  obtain ⟨s₂', hrun₂', hsim₂⟩ := hleave _ _ hsim₁ () s₂ hrun₂
  exact ⟨_, inScope_eq_ok.mpr ⟨s₁', s₂', hrun₁', hrun₂', rfl⟩,
    hsim₂.withDepth (congrArg (· - 1) hsim₂.depth)⟩

theorem Similar.dropResult (h : Similar leaked extra s s') (hextra : ∀ r ∈ extra, r.kind ≠ .expr) :
    SimilarEnds leaked extra s s' dropResult dropResult := by
  rintro ⟨⟩ _ ⟨⟩
  refine ⟨_, rfl, h.withRefs ?_⟩
  rw [h.depth]
  exact RefSet.mem_discardExprs_or hextra h.refs

theorem Similar.promoteResult (h : Similar leaked extra s s')
    (hextra : ∀ r ∈ extra, r.kind ≠ .expr) :
    SimilarEnds leaked extra s s' (promoteResult env) (promoteResult env) := by
  rintro ⟨⟩ s₁ hrun
  obtain ⟨hlist, rfl⟩ := promoteResult_eq_ok.mp hrun
  refine ⟨_, promoteResult_eq_ok.mpr ⟨h.isListable hlist, rfl⟩, h.withRefs ?_⟩
  rw [h.depth]
  exact RefSet.mem_replaceExprs_or hextra h.refs

theorem Similar.enter (h : Similar leaked extra s s') {site : Option Pos} {decl : DeclId}
    {cls : Option ClassId} {seed : RefSet} {body body' : Interp Unit}
    (hbody : ∀ pos, SimilarEnds leaked .empty (s.called pos decl cls seed)
      (s'.called pos decl cls seed) body body') :
    SimilarEnds leaked extra s s' (enter env site decl cls seed body)
      (enter env site decl cls seed body') := by
  have hcut : isCut env s' decl seed = isCut env s decl seed := by
    unfold isCut
    rw [h.running]
  intro rs s₂ hrun
  rcases enter_eq_ok.mp hrun with ⟨hc, rfl, rfl⟩ | ⟨pos, s₁, rfl, hc, hb, hlist, rfl, rfl⟩
  · exact ⟨s'.cut env decl seed, enter_eq_ok.mpr (.inl ⟨hcut.trans hc, rfl, rfl⟩), { h with }⟩
  · obtain ⟨s₁', hb', hsim⟩ := hbody pos () s₁ hb
    exact ⟨s'.back s₁', enter_eq_ok.mpr (.inr ⟨pos, s₁', rfl, hcut.trans hc, hb',
      hsim.isListable hlist, RefSet.find_eq_of_mem_iff hsim.refs_iff, rfl⟩), h.back hsim⟩

theorem Similar.deferred (h : Similar leaked extra s s') {type : Option ClassId}
    {code code' : Interp Unit}
    (hcode : SimilarEnds leaked extra s.deferring s'.deferring code code')
    (hextra : ∀ s₁', code' s'.deferring = .ok () s₁' →
      ∀ r ∈ extra, r ∈ s₁'.refs → r ∉ s'.refs → isLeftBehind s₁'.depth r = false) :
    SimilarEnds leaked extra s s' (deferred env type code) (deferred env type code') := by
  rintro ⟨⟩ s₂ hrun
  obtain ⟨s₁, hc, hlist, rfl⟩ := deferred_eq_ok.mp hrun
  obtain ⟨s₁', hc', hsim⟩ := hcode () s₁ hc
  exact ⟨s'.resumed s₁' type, deferred_eq_ok.mpr ⟨s₁', hc', hsim.isListable hlist, rfl⟩,
    h.resumed hsim (hextra s₁' hc') type⟩

theorem Similar.checkLeftovers (h : Similar leaked extra s s')
    (hextra : ∀ r ∈ extra, r.kind ≠ .expr) (stmt : Stmt) :
    SimilarEnds leaked extra s s' (checkLeftovers env stmt) (checkLeftovers env stmt) := by
  have hleft : s'.leftover? env = s.leftover? env := by
    unfold State.leftover?
    rw [← List.head?_filter, ← List.head?_filter, h.depth]
    refine congrArg List.head? (RefSet.filter_sorted_eq fun r hr => Iff.symm ?_)
    rw [Bool.and_eq_true, beq_iff_eq] at hr
    exact (h.refs r).trans (or_iff_left fun hmem => hextra r hmem hr.1)
  rintro ⟨⟩ s₁ hrun
  obtain ⟨rfl, hpass⟩ := checkLeftovers_eq_ok.mp hrun
  refine ⟨s', checkLeftovers_eq_ok.mpr ⟨rfl, fun hchecked => ?_⟩, h⟩
  exact ⟨h.isListable (hpass hchecked).1, hleft.trans (hpass hchecked).2⟩

end Steps

/-! ### Loops from similar states -/

section Loops

variable {leaked : Bool} {extra : RefSet} {E : Effects} {body body' : Interp Unit}
  {s s' t u v : State}

/-- A pass that leaves the set of references as it was leads to a similar state, if a leak that it
may have recorded does not count. -/
theorem Frame.similar (h : Frame E s t) (hrefs : ∀ r, r ∈ s.refs ↔ r ∈ t.refs) :
    Similar t.pending.isSome .empty s t := by
  refine ⟨fun r => by simpa using hrefs r, h.depth, h.methodClass, h.callStack, h.running, ?_⟩
  cases hp : t.pending with
  | some trail => exact Option.some_ne_none trail
  | none =>
    refine Decidable.byContradiction fun hleak => ?_
    have := h.pending fun hs => hleak hs.symm
    exact hleak (hp.symm.trans this)

/-- What is left of a leak that may have been recorded before is the leak itself. -/
theorem Similar.of_frame (h : Similar s.pending.isSome .empty s t) (hframe : Frame E s t) :
    Similar false .empty s t := by
  refine { h with pending := ?_ }
  cases hp : s.pending with
  | some trail => exact (hframe.pending (by simp [hp])).trans hp
  | none =>
    have hquiet := h.pending
    rw [hp] at hquiet
    exact hquiet

/-- The further references that a state does not hold. -/
def missing (extra : RefSet) (s : State) : RefSet := extra.filter fun r => decide (r ∉ s.refs)

theorem mem_missing {r : Ref} : r ∈ missing extra s ↔ r ∈ extra ∧ r ∉ s.refs := by
  simp [missing]

/-- A pass after which the set of references is another one, and which the further references hide,
has added some of them. -/
theorem size_missing_lt (hu : Similar leaked extra s u) (hv : Similar leaked extra t v)
    (hrefs : ∀ r, r ∈ s.refs ↔ r ∈ t.refs) (hkept : ∀ r ∈ extra, r ∈ u.refs → r ∈ v.refs)
    (hnew : v.refs.sameAs u.refs = false) : (missing extra v).size < (missing extra u).size := by
  have hsub : ∀ r ∈ u.refs, r ∈ v.refs := by
    intro r hr
    have hmem := (hv.refs r).mp ((hrefs r).mp (hu.mem hr))
    exact hmem.elim id fun hx => hkept r hx hr
  obtain ⟨r, hrv, hru⟩ : ∃ r ∈ v.refs, r ∉ u.refs := by
    refine Decidable.byContradiction fun hnone => ?_
    simp only [not_exists, not_and, Decidable.not_not] at hnone
    rw [RefSet.sameAs_iff.mpr fun r => ⟨hnone r, hsub r⟩] at hnew
    cases hnew
  have hx : r ∈ extra := ((hu.refs r).mp ((hrefs r).mpr (hv.mem hrv))).resolve_left hru
  have hlist : (missing extra v).toList =
      (missing extra u).toList.filter fun r => decide (r ∉ v.refs) := by
    simp only [missing, RefSet.filter, List.filter_filter]
    refine List.filter_congr fun x _ => ?_
    have : x ∉ v.refs → x ∉ u.refs := fun h hmem => h (hsub x hmem)
    by_cases hxv : x ∈ v.refs <;> simp [hxv, this]
  rw [RefSet.size, RefSet.size, hlist]
  exact List.length_filter_lt_length_iff_exists.mpr
    ⟨r, mem_missing.mpr ⟨hx, hru⟩, by simpa using hrv⟩

variable (hbody : ∀ s s', Similar leaked extra s s' → SimilarEnds leaked extra s s' body body')
  (hself : ∀ leaked s s', Similar leaked .empty s s' → SimilarEnds leaked .empty s s' body body)
  (hframe : ∀ s s', body s = .ok () s' → Frame E s s')
  (hkept : ∀ s s', body' s = .ok () s' → ∀ r ∈ extra, r ∈ s.refs → r ∈ s'.refs)

include hbody hself hframe hkept

/-- Once the passes in the state with the further references change nothing, those without them come
to their end after as many more passes as there are further references to be added. -/
theorem exists_repeated_settled (c : Nat) : ∀ s t u v, body s = .ok () t →
    (∀ r, r ∈ s.refs ↔ r ∈ t.refs) → body' u = .ok () v → Similar leaked extra s u →
    Similar leaked extra t v → (missing extra u).size ≤ c →
    ∃ w, repeated body' (c + 1) u = .ok () w ∧ Similar leaked extra t w := by
  induction c with
  | zero =>
    intro s t u v _ hrefs hpass' hu hv hsize
    cases hsame : v.refs.sameAs u.refs with
    | true => exact ⟨v, repeated_eq_ok.mpr ⟨v, hpass', .inl ⟨hsame, rfl⟩⟩, hv⟩
    | false =>
      have := size_missing_lt hu hv hrefs (hkept u v hpass') hsame
      omega
  | succ c ih =>
    intro s t u v hpass hrefs hpass' hu hv hsize
    cases hsame : v.refs.sameAs u.refs with
    | true => exact ⟨v, repeated_eq_ok.mpr ⟨v, hpass', .inl ⟨hsame, rfl⟩⟩, hv⟩
    | false =>
      have hlt := size_missing_lt hu hv hrefs (hkept u v hpass') hsame
      -- one more pass on either side; the one with the further references changes nothing again
      obtain ⟨t₂, hnext, hsim⟩ := hself _ s t ((hframe s t hpass).similar hrefs) () t hpass
      obtain ⟨v₂, hnext', hv₂⟩ := hbody t v hv () t₂ hnext
      obtain ⟨w, hw, hsim'⟩ := ih t t₂ v v₂ hnext hsim.refs_iff hnext' hv hv₂ (by omega)
      exact ⟨w, repeated_eq_ok.mpr ⟨v, hpass', .inr ⟨hsame, hw⟩⟩,
        (hsim.of_frame (hframe t t₂ hnext)).trans hsim' nofun⟩

/-- Passes until nothing changes: without the further references there may be more of them. -/
theorem repeated_similar (n : Nat) : ∀ k s s', n + extra.size ≤ k → Similar leaked extra s s' →
    SimilarEnds leaked extra s s' (repeated body n) (repeated body' k) := by
  induction n with
  | zero => exact fun _ _ _ _ _ _ _ hrun => nomatch hrun
  | succ n ih =>
    rintro k s s' hk h ⟨⟩ s₂ hrun
    obtain ⟨k, rfl⟩ : ∃ j, k = j + 1 := ⟨k - 1, by omega⟩
    obtain ⟨s₁, hpass, hrest⟩ := repeated_eq_ok.mp hrun
    obtain ⟨s₁', hpass', hsim⟩ := hbody s s' h () s₁ hpass
    rcases hrest with ⟨hend, rfl⟩ | ⟨hgo, hrest⟩
    · have hsize : (missing extra s').size ≤ extra.size := List.length_filter_le ..
      exact exists_repeated_settled hbody hself hframe hkept k s s₂ s' s₁' hpass
        (fun r => (RefSet.sameAs_iff.mp hend r).symm) hpass' h hsim (by omega)
    · have hgo' : s₁'.refs.sameAs s'.refs = false := by
        refine Bool.eq_false_iff.mpr fun hend => Bool.eq_false_iff.mp hgo ?_
        refine RefSet.sameAs_iff.mpr fun r => ?_
        rw [h.refs, hsim.refs, RefSet.sameAs_iff.mp hend r]
      obtain ⟨s₂', hrest', hsim'⟩ := ih k s₁ s₁' (by omega) hsim () s₂ hrest
      exact ⟨s₂', repeated_eq_ok.mpr ⟨s₁', hpass', .inr ⟨hgo', hrest'⟩⟩, hsim'⟩

end Loops

/-! ### Programs from similar states -/

section Programs

variable {t : SymbolTable} {cat : Catalog} {checked : Bool} {guard : Guard} {ties : TieOrder}

/-- The interpreter with the bound `k` on the steps comes to its end like that with the bound `n`
from similar states, if `k` leaves a step for each of the further references. -/
def Forgets (t : SymbolTable) (cat : Catalog) (checked : Bool) (guard : Guard) (ties : TieOrder)
    (n k : Nat) : Prop :=
  ∀ leaked extra task s s', n + extra.size ≤ k → task.node.Overlooks extra →
    Similar leaked extra s s' → SimilarEnds leaked extra s s'
      (exec ⟨t, cat, checked, guard, ties⟩ n task) (exec ⟨t, cat, checked, guard, ties⟩ k task)

/-- A program leads from similar states to similar states if the pieces inside do. -/
theorem Program.similar {n k : Nat} (hwalk : Forgets t cat checked guard ties n k) {E : Effects}
    {p q : Phase} {α : Type} {x : Mode → Interp α} {V : α → Prop}
    (h : Program (World.all t cat) E p x V q) :
    ∀ leaked extra s s', n + extra.size ≤ k → E.Ignores extra → Similar leaked extra s s' →
      SimilarEnds leaked extra s s' (x ((World.all t cat).mode checked guard ties n))
        (x ((World.all t cat).mode checked guard ties k)) := by
  have hw := World.all_closed t cat
  induction h with
  | pure =>
    rintro leaked extra s s' - - hsim _ _ ⟨⟩
    exact ⟨s', rfl, hsim⟩
  | bind hx hf ihx ihf =>
    intro leaked extra s s' hk hE hsim
    refine (ihx leaked extra s s' hk hE hsim).bind fun a s₁ s₁' hrun hsim₁ => ?_
    have ha := (hx.lawful (exec_lawful hw checked guard ties n)
      ⟨fun _ _ => trivial, fun _ _ => trivial⟩ s a s₁ (World.all_tracked s) hrun).1
    exact ihf a ha leaked extra s₁ s₁' hk hE hsim₁
  | weaken _ _ _ _ ih => exact ih
  | run hcover =>
    exact fun leaked extra s s' hk hE hsim =>
      hwalk leaked extra _ s s' hk (hE.now _ hcover.1) hsim
  | stop => exact fun _ _ _ _ _ _ _ _ _ hrun => nomatch hrun
  | ask _ ih =>
    intro leaked extra s s' hk hE hsim a s₁ hrun
    obtain ⟨s₁', hrun', hsim₁⟩ := ih s.methodClass leaked extra s s' hk hE hsim a s₁ hrun
    refine ⟨s₁', ?_, hsim₁⟩
    rw [← hsim.methodClass] at hrun'
    exact hrun'
  | basic hf =>
    exact fun leaked extra s s' _ hE hsim => hsim.onRefs fun d refs refs' =>
      (hf _).alike d refs refs' extra hE.passes
  | leakAt => exact fun leaked extra s s' _ _ hsim => hsim.leakAt _
  | scope _ ih =>
    intro leaked extra s s' hk hE hsim
    exact (ih leaked extra _ _ hk hE hsim.deeper).inScope fun _ _ h =>
      h.dropResult hE.passes.kind_ne_expr
  | promote _ ih =>
    intro leaked extra s s' hk hE hsim
    exact (ih leaked extra _ _ hk hE hsim.deeper).inScope fun _ _ h =>
      h.promoteResult hE.passes.kind_ne_expr
  | call he hb _ hin hseed hne _ ih =>
    intro leaked extra s s' hk hE hsim
    exact hsim.enter fun pos => ih leaked .empty _ _ (Nat.le_of_add_right_le hk)
      (Effects.ignores_empty _) (hsim.called pos _ _ _)
  | visit hc _ hin hseed hne _ ih =>
    intro leaked extra s s' hk hE hsim
    refine (hsim.enter fun pos => ih leaked .empty _ _ (Nat.le_of_add_right_le hk)
      (Effects.ignores_empty _) (hsim.called pos _ _ _)).bind ?_
    rintro _ _ _ - hsim₁ _ _ ⟨⟩
    exact ⟨_, rfl, hsim₁⟩
  | @deferred E p q type x ht hi hx ih =>
    intro leaked extra s s' hk hE hsim
    refine hsim.deferred (ih leaked extra _ _ hk hE.deferred hsim.deferring) ?_
    intro s₁' hcode r hr hmem hnew
    -- a returned value that was not there before would be one that the code returns
    have hframe := (hx.lawful (exec_lawful hw checked guard ties k)
      ⟨fun _ _ => trivial, fun _ _ => trivial⟩ _ () s₁' (World.all_tracked _) hcode).2.2
    have hgives : E.defers r.role := hframe.added r hmem (hE.passes.kind_ne_expr r hr) hnew
    rcases (hE.passes r hr).1 with hk | hk | ⟨v, hv, -⟩
    · rw [Ref.kind_eq_returned_iff.mp hk] at hgives
      exact absurd ⟨hk, hgives⟩ (hE.defers r hr)
    · simp [isLeftBehind, Ref.kind_eq_yielded_iff.mp hk]
    · simp [isLeftBehind, hv]
  | check =>
    exact fun leaked extra s s' _ hE hsim => hsim.checkLeftovers hE.passes.kind_ne_expr _

/-- The interpreter leads from similar states to similar states: a piece that passes over the
further references does the same without them, in as many more steps as there are. -/
theorem exec_forgets (n : Nat) : ∀ k, Forgets t cat checked guard ties n k := by
  have hw := World.all_closed t cat
  induction n with
  | zero => exact fun _ _ _ _ _ _ _ _ _ _ _ hrun => nomatch hrun
  | succ n ih =>
    intro k leaked extra task s s' hk hoverlooks h
    obtain ⟨k, rfl⟩ : ∃ j, k = j + 1 := ⟨k - 1, by omega⟩
    have hE : (Effects.ofTask task).Ignores extra := Effects.ignores_ofTask hoverlooks
    by_cases hloop : ∃ stmt, task = .loop stmt
    · obtain ⟨stmt, rfl⟩ := hloop
      have hpass := program_loopPass hw stmt trivial
      have hframe (n : Nat) (s s' : State)
          (hrun : loopPass ⟨t, cat, checked, guard, ties⟩ (exec ⟨t, cat, checked, guard, ties⟩ n)
            stmt s = .ok () s') : Frame (.ofTask (.loop stmt)) s s' :=
        (hpass.lawful (exec_lawful hw checked guard ties n) (Effects.within_ofTask hw trivial) s ()
          s' (World.all_tracked s) hrun).2.2
      refine SimilarEnds.inScope (repeated_similar
        (fun s s' => hpass.similar (ih k) leaked extra s s' (by omega) hE)
        (fun leaked s s' => hpass.similar (ih n) leaked .empty s s' (Nat.le_refl n)
          (Effects.ignores_empty _)) (hframe n) ?_ n k _ _ (by omega) h.deeper)
        fun _ _ h => h.dropResult hE.passes.kind_ne_expr
      exact fun u v hrun r hr hmem => (hframe k u v hrun).kept r hmem
        (hE.passes.kind_ne_expr r hr) (hE.passes r hr).2
    · have hstep := program_step hw (fun stmt h => hloop ⟨stmt, h⟩) trivial
      exact hstep.similar (ih k) leaked extra s s' (by omega) hE h

end Programs

end Interp

end EarlyEscape
