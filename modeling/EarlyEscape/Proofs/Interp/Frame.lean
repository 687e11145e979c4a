import EarlyEscape.Proofs.Interp.Handlers
import EarlyEscape.Proofs.Interp.Run

/-!
# The frame of an interpretation

A piece of a program that is interpreted to its end leaves most of the state as it was.  The place
of the running code and the running calls are the same, and so are the results of expressions in
the scopes outside.  References are added and taken away only in the places that the nodes of the
piece allow, whatever code simulated calls run in between, and a leak that has been recorded stays.

## Main definitions

* `Interp.Frame` : what is left as it was by code with given effects.
* `Interp.Mode.Lawful` : the interpreter of a mode respects the frames of the pieces it interprets.

## Main results

* `Interp.Program.lawful` : every program respects the frame of its effects.
* `Interp.exec_lawful` : so does the interpreter.
* `Interp.exec_keeps_frame` : the frame of a piece of a program, read off its node.
-/

namespace EarlyEscape.Interp

/-! ### Frames -/

/-- What code with the effects `E` leaves as it was when it leads from the state `s` to the state
`s'`. -/
structure Frame (E : Effects) (s s' : State) : Prop where
  depth : s'.depth = s.depth
  methodClass : s'.methodClass = s.methodClass
  targetClass : s'.targetClass = s.targetClass
  callStack : s'.callStack = s.callStack
  running : s'.running = s.running
  saved : s'.saved = s.saved
  /-- The results in the scopes outside are the same. -/
  exprs : ∀ r k, r.role = .expr k → k < s.depth → (r ∈ s'.refs ↔ r ∈ s.refs)
  kept : ∀ r ∈ s.refs, r.kind ≠ .expr → ¬E.takes r.kind → r ∈ s'.refs
  added : ∀ r ∈ s'.refs, r.kind ≠ .expr → r ∉ s.refs → E.gives r.role
  pending : s.pending ≠ none → s'.pending = s.pending
  log : s.log <+: s'.log

namespace Frame

variable {E E' : Effects} {s s₁ s₂ : State}

theorem refl : Frame E s s where
  depth := rfl
  methodClass := rfl
  targetClass := rfl
  callStack := rfl
  running := rfl
  saved := rfl
  exprs _ _ _ _ := Iff.rfl
  kept _ hr _ _ := hr
  added _ hr _ hnew := absurd hr hnew
  pending _ := rfl
  log := List.prefix_rfl

theorem trans (h : Frame E s s₁) (h' : Frame E s₁ s₂) : Frame E s s₂ where
  depth := h'.depth.trans h.depth
  methodClass := h'.methodClass.trans h.methodClass
  targetClass := h'.targetClass.trans h.targetClass
  callStack := h'.callStack.trans h.callStack
  running := h'.running.trans h.running
  saved := h'.saved.trans h.saved
  exprs r k hk hlt := (h'.exprs r k hk (h.depth ▸ hlt)).trans (h.exprs r k hk hlt)
  kept r hr hkind ht := h'.kept r (h.kept r hr hkind ht) hkind ht
  added r hr hkind hnew := by
    by_cases hmid : r ∈ s₁.refs
    · exact h.added r hmid hkind hnew
    · exact h'.added r hr hkind hmid
  pending hp := by
    have h₁ := h.pending hp
    exact (h'.pending (h₁ ▸ hp)).trans h₁
  log := h.log.trans h'.log

/-- Code with fewer effects leaves more as it was. -/
theorem mono (h : Frame E s s₁) (hgives : ∀ role, E.gives role → E'.gives role)
    (htakes : ∀ k, E.takes k → E'.takes k) : Frame E' s s₁ :=
  { h with
    kept := fun r hr hkind ht => h.kept r hr hkind fun h => ht (htakes _ h)
    added := fun r hr hkind hnew => hgives _ (h.added r hr hkind hnew) }

/-- A change of the references alone. -/
theorem of_refs {refs : RefSet} (hexprs : ∀ r k, r.role = .expr k → k < s.depth →
      (r ∈ refs ↔ r ∈ s.refs))
    (hkept : ∀ r ∈ s.refs, r.kind ≠ .expr → ¬E.takes r.kind → r ∈ refs)
    (hadded : ∀ r ∈ refs, r.kind ≠ .expr → r ∉ s.refs → E.gives r.role) :
    Frame E s { s with refs } :=
  { (refl : Frame E s s) with exprs := hexprs, kept := hkept, added := hadded }

/-- A scope outside of code is left as it was, and what the code leaves at its own depth may be
dropped or moved to the scope outside. -/
theorem leave {refs : RefSet} (h : Frame E { s with depth := s.depth + 1 } s₁)
    (hsame : ∀ r, r.kind ≠ .expr → (r ∈ refs ↔ r ∈ s₁.refs))
    (hexprs : ∀ r k, r.role = .expr k → k < s.depth → (r ∈ refs ↔ r ∈ s₁.refs)) :
    Frame E s { s₁ with refs, depth := s₁.depth - 1 } where
  depth := by
    have hd : s₁.depth = s.depth + 1 := h.depth
    change s₁.depth - 1 = s.depth
    omega
  methodClass := h.methodClass
  targetClass := h.targetClass
  callStack := h.callStack
  running := h.running
  saved := h.saved
  exprs r k hk hlt :=
    (hexprs r k hk hlt).trans (h.exprs r k hk (Int.lt_add_one_of_le (Int.le_of_lt hlt)))
  kept r hr hkind ht := (hsame r hkind).mpr (h.kept r hr hkind ht)
  added r hr hkind hnew := h.added r ((hsame r hkind).mp hr) hkind hnew
  pending := h.pending
  log := h.log

/-- A call leaves all as it was but the leak and the log. -/
theorem back {pos : Pos} {decl : DeclId} {cls : Option ClassId} {seed : RefSet}
    (h : Frame E' (s.called pos decl cls seed) s₁) : Frame E s (s.back s₁) :=
  { (refl : Frame E s s) with
    targetClass := h.targetClass, pending := h.pending, log := h.log }

theorem cut {env : Env} {decl : DeclId} {seed : RefSet} : Frame E s (s.cut env decl seed) :=
  { (refl : Frame E s s) with log := List.prefix_append _ _ }

/-- Deferred code leaves all as it was but the current result, the leak and the log. -/
theorem resumed {type : Option ClassId} (h : Frame E' s.deferring s₁) :
    Frame E s (s.resumed s₁ type) := by
  have hmem : ∀ r, r ∈ s₁.captured s.refs type → r ∈ s.refs ∨ r.role = .expr s.depth := by
    intro r hr
    unfold State.captured at hr
    split at hr
    · rcases RefSet.mem_insert.mp hr with rfl | hr
      · exact .inr (congrArg Ref.Role.expr h.depth)
      · exact .inl hr
    · exact .inl hr
  have hkept : ∀ r ∈ s.refs, r ∈ s₁.captured s.refs type := by
    intro r hr
    unfold State.captured
    split
    · exact RefSet.mem_insert.mpr (.inr hr)
    · exact hr
  refine { h with saved := rfl, exprs := ?_, kept := fun r hr _ _ => hkept r hr, added := ?_ }
  · intro r k hk hlt
    refine ⟨fun hr => (hmem r hr).resolve_right fun h => ?_, hkept r⟩
    have := Ref.Role.expr.inj (hk.symm.trans h)
    omega
  · intro r hr hkind hnew
    rcases hmem r hr with hr | hrole
    · exact absurd hr hnew
    · exact absurd (Ref.kind_of_role_expr hrole) hkind

end Frame

/-! ### Programs respect their frames -/

/-- The references of the state stay inside the bounds. -/
def World.Tracked (w : World) (s : State) : Prop := ∀ r ∈ s.refs, w.Tracks r

theorem World.all_tracked {t : SymbolTable} {cat : Catalog} (s : State) :
    (World.all t cat).Tracked s :=
  fun _ _ => ⟨trivial, trivial, fun _ _ => trivial⟩

/-- The interpreter of the mode respects the frames of the pieces that it interprets, and keeps the
references inside the bounds. -/
def Mode.Lawful (w : World) (m : Mode) : Prop :=
  ∀ t s s', w.nodes t.node → w.Tracked s → m.walk t s = .ok () s' →
    w.Tracked s' ∧ Frame (.ofTask t) s s'

theorem Effects.within_ofTask {w : World} (hw : w.Closed) {t : Task} (ht : w.nodes t.node) :
    (Effects.ofTask t).Within w where
  now t' h := by
    rcases h with h | ⟨s, rfl, rfl⟩
    · exact hw.below _ _ ht h.below
    · exact ht
  later n h := hw.below _ _ ht h

section Lawful

variable {w : World} {m : Mode}

theorem Basic.frame {E : Effects} {p q : Phase} {α : Type} {f : Int → RefSet → α × RefSet}
    {V : α → Prop} (h : Basic w E p f V q) (s : State) :
    Frame E s { s with refs := (f s.depth s.refs).2 } :=
  .of_refs (fun r k hk hlt => h.exprs s.depth s.refs r k hk (by omega)) (h.kept s.depth s.refs)
    (h.added s.depth s.refs)

/-- A scope respects the frame of its body. -/
theorem inScope_lawful {E : Effects} {body : Interp Unit}
    (h : ∀ s s', w.Tracked s → body s = .ok () s' → w.Tracked s' ∧ Frame E s s') :
    ∀ s s', w.Tracked s → inScope dropResult body s = .ok () s' → w.Tracked s' ∧ Frame E s s' := by
  intro s s' hs hrun
  obtain ⟨s₁, s₂, hbody, ⟨⟩, rfl⟩ := inScope_eq_ok.mp hrun
  obtain ⟨hs₁, hframe⟩ := h { s with depth := s.depth + 1 } s₁ hs hbody
  have hd : s₁.depth = s.depth + 1 := hframe.depth
  refine ⟨fun r hr => hs₁ r (RefSet.mem_discardExprs.mp hr).1, hframe.leave ?_ ?_⟩
  · intro r hkind
    exact RefSet.mem_discardExprs.trans
      ⟨And.left, fun hr => ⟨hr, fun h => hkind (Ref.kind_of_role_expr h)⟩⟩
  · intro r k hk hlt
    refine RefSet.mem_discardExprs.trans ⟨And.left, fun hr => ⟨hr, fun h => ?_⟩⟩
    have := Ref.Role.expr.inj (hk.symm.trans h)
    omega

/-- A program gives the values it promises, keeps the references inside the bounds and respects the
frame of its effects. -/
theorem Program.lawful (hm : m.Lawful w) {E : Effects} {p q : Phase} {α : Type}
    {x : Mode → Interp α} {V : α → Prop} (h : Program w E p x V q) (hE : E.Within w) :
    ∀ s a s', w.Tracked s → x m s = .ok a s' → V a ∧ w.Tracked s' ∧ Frame E s s' := by
  induction h with
  | pure ha =>
    rintro s a s' hs ⟨⟩
    exact ⟨ha, hs, .refl⟩
  | bind _ _ ihx ihf =>
    intro s b s' hs hrun
    obtain ⟨a, s₁, hx, hf⟩ := bind_eq_ok.mp hrun
    obtain ⟨ha, hs₁, hframe⟩ := ihx hE s a s₁ hs hx
    obtain ⟨hb, hs', hframe'⟩ := ihf a ha hE s₁ b s' hs₁ hf
    exact ⟨hb, hs', hframe.trans hframe'⟩
  | weaken _ _ _ hV ih =>
    intro s a s' hs hrun
    obtain ⟨ha, hs', hframe⟩ := ih hE s a s' hs hrun
    exact ⟨hV a ha, hs', hframe⟩
  | @run E t hcover =>
    intro s a s' hs hrun
    obtain ⟨hs', hframe⟩ := hm t s s' (hE.now t hcover.1) hs hrun
    exact ⟨trivial, hs', hframe.mono hcover.2.1 hcover.2.2.1⟩
  | stop => exact fun _ _ _ _ hrun => nomatch hrun
  | ask _ ih => exact fun s a s' hs hrun => ih s.methodClass hE s a s' hs hrun
  | basic hf =>
    intro s a s' hs hrun
    obtain ⟨-, rfl, rfl⟩ := onRefs_eq_ok.mp hrun
    exact ⟨(hf _).value _ _ hs, (hf _).tracks _ _ hs, (hf _).frame s⟩
  | leakAt =>
    intro s a s' hs hrun
    rcases leakAt_eq_ok.mp hrun with ⟨-, rfl⟩ | ⟨hp, pos, -, rfl⟩
    · exact ⟨trivial, hs, .refl⟩
    · exact ⟨trivial, hs, { (Frame.refl : Frame _ s s) with pending := fun h => absurd hp h }⟩
  | scope _ ih =>
    intro s a s' hs hrun
    exact ⟨trivial, inScope_lawful (fun s s' hs hrun => (ih hE s () s' hs hrun).2) s s' hs hrun⟩
  | promote _ ih =>
    intro s a s' hs hrun
    obtain ⟨s₁, s₂, hbody, hleave, rfl⟩ := inScope_eq_ok.mp hrun
    obtain ⟨-, rfl⟩ := promoteResult_eq_ok.mp hleave
    obtain ⟨-, hs₁, hframe⟩ := ih hE { s with depth := s.depth + 1 } () s₁ hs hbody
    have hd : s₁.depth = s.depth + 1 := hframe.depth
    refine ⟨trivial, fun r hr => ?_, hframe.leave ?_ ?_⟩
    · rcases RefSet.mem_replaceExprs.mp hr with ⟨x, hx, -, rfl⟩ | hr
      · exact { hs₁ x hx with var := nofun }
      · exact hs₁ r hr.1
    · intro r hkind
      refine RefSet.mem_replaceExprs.trans ⟨?_, fun hr => .inr ⟨hr, fun h => ?_⟩⟩
      · rintro (⟨x, -, -, rfl⟩ | hr)
        · exact absurd rfl hkind
        · exact hr.1
      · exact hkind (Ref.kind_of_role_expr h)
    · intro r k hk hlt
      refine RefSet.mem_replaceExprs.trans ⟨?_, fun hr => .inr ⟨hr, fun h => ?_⟩⟩
      · rintro (⟨x, -, -, rfl⟩ | hr)
        · have := Ref.Role.expr.inj hk
          omega
        · exact hr.1
      · have := Ref.Role.expr.inj (hk.symm.trans h)
        omega
  | call he hb _ hin hseed hne _ ih =>
    intro s rs s' hs hrun
    rcases enter_eq_ok.mp hrun with ⟨-, rfl, rfl⟩ | ⟨pos, s₁, -, -, hbody, -, rfl, rfl⟩
    · exact ⟨nofun, hs, .cut⟩
    · obtain ⟨-, hs₁, hframe⟩ := ih (Effects.within_inside hin) _ () s₁
        (fun r hr => (hseed r (RefSet.mem_canonical.mp hr)).1) hbody
      exact ⟨fun r hr => hs₁ r (RefSet.mem_find.mp hr).1, hs, .back hframe⟩
  | visit hc _ hin hseed hne _ ih =>
    intro s a s' hs hrun
    obtain ⟨rs, s₁, hrun, ⟨⟩⟩ := bind_eq_ok.mp hrun
    rcases enter_eq_ok.mp hrun with ⟨-, rfl, rfl⟩ | ⟨pos, s₁, -, -, hbody, -, rfl, rfl⟩
    · exact ⟨trivial, hs, .cut⟩
    · obtain ⟨-, -, hframe⟩ := ih (Effects.within_inside hin) _ () s₁
        (fun r hr => (hseed r (RefSet.mem_canonical.mp hr)).1) hbody
      exact ⟨trivial, hs, .back hframe⟩
  | deferred ht hi _ ih =>
    intro s a s' hs hrun
    obtain ⟨s₁, hcode, -, rfl⟩ := deferred_eq_ok.mp hrun
    obtain ⟨-, hs₁, hframe⟩ := ih hE.deferred s.deferring () s₁ hs hcode
    refine ⟨trivial, fun r hr => ?_, hframe.resumed⟩
    change r ∈ s₁.captured s.refs _ at hr
    unfold State.captured at hr
    split at hr
    · next hcaptured =>
      -- the reference to the closure stands for one that was left behind
      obtain ⟨x, hx, -⟩ := List.any_eq_true.mp hcaptured
      rcases RefSet.mem_insert.mp hr with rfl | hr
      · exact ⟨ht, hi _ (hs₁ x hx).ind, nofun⟩
      · exact hs r hr
    · exact hs r hr
  | check =>
    intro s a s' hs hrun
    obtain ⟨rfl, -⟩ := checkLeftovers_eq_ok.mp hrun
    exact ⟨trivial, hs, .refl⟩

/-- The passes of a loop respect the frame of one pass. -/
theorem repeated_lawful {E : Effects} {body : Interp Unit}
    (h : ∀ s s', w.Tracked s → body s = .ok () s' → w.Tracked s' ∧ Frame E s s') (n : Nat) :
    ∀ s s', w.Tracked s → repeated body n s = .ok () s' → w.Tracked s' ∧ Frame E s s' := by
  induction n with
  | zero => exact fun _ _ _ hrun => nomatch hrun
  | succ n ih =>
    intro s s' hs hrun
    obtain ⟨s₁, hpass, hrest⟩ := repeated_eq_ok.mp hrun
    obtain ⟨hs₁, hframe⟩ := h s s₁ hs hpass
    rcases hrest with ⟨-, rfl⟩ | ⟨-, hrest⟩
    · exact ⟨hs₁, hframe⟩
    · obtain ⟨hs', hframe'⟩ := ih s₁ s' hs₁ hrest
      exact ⟨hs', hframe.trans hframe'⟩

/-- The interpreter with a bound on the steps, as a mode. -/
def World.mode (w : World) (checked : Bool) (guard : Guard) (ties : TieOrder) (n : Nat) : Mode where
  checked := checked
  guard := guard
  ties := ties
  walk := exec ⟨w.table, w.catalog, checked, guard, ties⟩ n
  passes := n

/-- The handlers respect the frames of their pieces if the interpreter for the pieces inside
does. -/
theorem step_lawful (hw : w.Closed) (hm : m.Lawful w) {t : Task} (ht : w.nodes t.node) :
    ∀ s s', w.Tracked s → step (w.env m) m.walk m.passes t s = .ok () s' →
      w.Tracked s' ∧ Frame (.ofTask t) s s' := by
  intro s s' hs hrun
  have hE := Effects.within_ofTask hw ht
  by_cases hloop : ∃ stmt, t = .loop stmt
  · obtain ⟨stmt, rfl⟩ := hloop
    refine inScope_lawful (repeated_lawful (fun s s' hs hrun => ?_) m.passes) s s' hs hrun
    exact ((program_loopPass hw stmt ht).lawful hm hE s () s' hs hrun).2
  · have hstep := program_step hw (fun stmt h => hloop ⟨stmt, h⟩) ht
    exact (hstep.lawful hm hE s () s' hs hrun).2

/-- The interpreter respects the frames of all pieces of a program. -/
theorem exec_lawful (hw : w.Closed) (checked : Bool) (guard : Guard) (ties : TieOrder) (n : Nat) :
    (w.mode checked guard ties n).Lawful w := by
  induction n with
  | zero => exact fun _ _ _ _ _ hrun => nomatch hrun
  | succ n ih => exact fun t s s' ht hs hrun => step_lawful hw ih ht s s' hs hrun

end Lawful

/-- A run of a program keeps its frame and gives a value as the program says. -/
theorem Program.of_run {env : Env} {E : Effects} {p q : Phase} {α : Type} {x : Mode → Interp α}
    {V : α → Prop} (h : Program (World.all env.table env.catalog) E p x V q) {n : Nat}
    {s s' : State} {a : α}
    (hrun : x ((World.all env.table env.catalog).mode env.checked env.guard env.ties n) s =
      .ok a s') :
    V a ∧ Frame E s s' := by
  obtain ⟨ha, -, hframe⟩ := h.lawful
    (exec_lawful (World.all_closed env.table env.catalog) env.checked env.guard env.ties n)
    ⟨fun _ _ => trivial, fun _ _ => trivial⟩ s a s' (World.all_tracked s) hrun
  exact ⟨ha, hframe⟩

/-! ### The frame of a piece of a program -/

/-- Every piece of a program that is interpreted to its end leaves the place of the running code,
the running calls, the receivers and the results in the scopes outside as they were, keeps all
values of variables and all returned values, gives a value to a variable only if a node that it runs
assigns or declares it, and keeps a leak that has been recorded. -/
theorem exec_keeps_frame (env : Env) (fuel : Nat) (task : Task) (s s' : State)
    (hrun : exec env fuel task s = .ok () s') :
    (s'.depth = s.depth ∧ s'.methodClass = s.methodClass ∧ s'.targetClass = s.targetClass ∧
      s'.callStack = s.callStack ∧ s'.running = s.running) ∧
    ((∀ r, r.kind = .this → (r ∈ s'.refs ↔ r ∈ s.refs)) ∧
      (∀ r ∈ s.refs, r.kind = .var ∨ r.kind = .returned → r ∈ s'.refs) ∧
      ∀ r d, r.role = .expr d → d < s.depth → (r ∈ s'.refs ↔ r ∈ s.refs)) ∧
    (∀ r ∈ s'.refs, r ∉ s.refs → ∀ v, r.role = .var v →
      ∃ n, task.node.Runs n ∧ n.Targets v) ∧
    (∀ trail, s.pending = some trail → s'.pending = some trail) := by
  have hlawful := exec_lawful (World.all_closed env.table env.catalog) env.checked env.guard
    env.ties fuel
  obtain ⟨-, h⟩ := hlawful task s s' trivial (World.all_tracked s) hrun
  have hkept : ∀ r ∈ s.refs, r.kind ≠ .expr → r.kind ≠ .yielded → r ∈ s'.refs :=
    fun r hr hexpr hyielded => h.kept r hr hexpr fun ht => hyielded ht.1
  refine ⟨⟨h.depth, h.methodClass, h.targetClass, h.callStack, h.running⟩,
    ⟨fun r hr => ⟨fun hmem => ?_, fun hmem => hkept r hmem (by simp [hr]) (by simp [hr])⟩, ?_,
      h.exprs⟩, ?_, fun trail ht => by simpa [ht] using h.pending (by simp [ht])⟩
  · refine Decidable.byContradiction fun hnew => ?_
    obtain ⟨v, hv⟩ | hv | hv := (h.added r hmem (by simp [hr]) hnew).var_returned_yielded <;>
      simp [Ref.kind, hv, Ref.Role.kind] at hr
  · rintro r hr (hk | hk) <;> exact hkept r hr (by simp [hk]) (by simp [hk])
  · intro r hr hnew v hv
    obtain ⟨n, hn, hgives⟩ := h.added r hr (by simp [Ref.kind, hv, Ref.Role.kind]) hnew
    rw [hv] at hgives
    cases hgives with
    | target htarget => exact ⟨n, hn, htarget⟩

/-- A statement that assigns the receiver to the local variable `x`. -/
def assignment : Stmt :=
  .exprStmt default (some (.assign default (some (.ident default "x" (some (.var ⟨0⟩))))
    (some (.ident default "this" none))))

theorem exec_keeps_frame_assignment :
    ∃ s', exec { table := { vars := #[{ name := "x" }] }, catalog := {} } 3 (.stmt assignment)
        (.start none) = .ok () s' ∧
      ⟨.var ⟨0⟩, none, .direct⟩ ∈ s'.refs ∧ s'.depth = 0 ∧
      (∀ r, r.kind = .this → (r ∈ s'.refs ↔ r ∈ (State.start none).refs)) ∧
      ∀ r ∈ s'.refs, r ∉ (State.start none).refs → ∀ v, r.role = .var v →
        ∃ n, Node.Runs (.stmt assignment) n ∧ n.Targets v := by
  refine ⟨_, rfl, by decide, ?_⟩
  obtain ⟨hplace, hkept, hadded, -⟩ := exec_keeps_frame
    { table := { vars := #[{ name := "x" }] }, catalog := {} } 3 (.stmt assignment) (.start none)
    _ rfl
  exact ⟨hplace.1, hkept.1, hadded⟩

end EarlyEscape.Interp
