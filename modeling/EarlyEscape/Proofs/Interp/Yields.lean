import EarlyEscape.Proofs.Interp.Similar

/-!
# What a switch with a value takes

The value of a switch is what its cases yield.  After every case, a switch takes all yielded values
away, whichever switch they belong to.  So when a switch stands in a case of another one, it takes
what the outer one has yielded before, and its value is the union of that and of its own yields.
Only a switch without cases leaves them in place.

## Main definitions

* `Node.HasSwitch` : a switch with a value stands in a node.
* `Interp.Effects.only` : the effects of code that runs given nodes and nothing else.

## Main results

* `Interp.switch_takes_yields` : no yielded value outlives a switch, and those that were there
  before become part of its value.
* `Interp.inner_switch_steals` : an inner switch takes the value of the outer one.
-/

namespace EarlyEscape

/-- A switch with a value stands in the node. -/
def Node.HasSwitch (n : Node) : Prop :=
  ∃ span selector cases, n.Within (.expr (.switchExpr span selector cases))

theorem Node.not_hasSwitch {n : Node}
    (hn : ∀ span selector cases, n ≠ .expr (.switchExpr span selector cases))
    (h : ∀ c ∈ n.children, ¬c.HasSwitch) : ¬n.HasSwitch := by
  rintro ⟨span, selector, cases, hwithin⟩
  rcases Relation.ReflTransGen.cases_head hwithin with rfl | ⟨c, hc, hinside⟩
  · exact hn _ _ _ rfl
  · exact h c hc ⟨_, _, _, hinside⟩

theorem Node.ignores_yields {n : Node} {yields : RefSet} (hyields : ∀ r ∈ yields, r.kind = .yielded)
    (h : ¬n.HasSwitch) : n.Ignores yields := by
  refine fun r hr => ⟨.inr (hyields r hr), fun c hc hnotices => ?_⟩
  rw [hyields r hr] at hnotices
  unfold Node.Notices at hnotices
  split at hnotices
  · exact h ⟨_, _, _, hc⟩
  · next heq => cases heq
  · exact hnotices

namespace Interp

/-! ### Effects of given nodes -/

namespace Effects

/-- The effects of code that runs given nodes and nothing else. -/
def only (nodes : Node → Prop) : Effects :=
  { inside nodes with
    takes := fun k => ∃ n, nodes n ∧ n.Takes k, reads := fun v => ∃ n, nodes n ∧ n.Reads v
    defers := fun _ => False }

theorem covers_only {nodes : Node → Prop} {c : Task} (h : nodes c.node) : (only nodes).Covers c :=
  ⟨h, fun _ _ => trivial, fun _ hk => ⟨_, h, hk⟩, fun _ hv => ⟨_, h, hv⟩⟩

theorem ignores_only {nodes : Node → Prop} {extra : RefSet}
    (hkind : ∀ r ∈ extra, r.kind = .returned ∨ r.kind = .yielded)
    (h : ∀ n, nodes n → n.Ignores extra) : (only nodes).Ignores extra where
  passes r hr := ⟨(hkind r hr).imp_right .inl, fun ⟨_, hn, ht⟩ =>
    (h _ hn).overlooks.not_takes hr ht⟩
  now t ht := (h t.node ht).overlooks
  later n hn := (h n hn).overlooks
  defers _ _ hd := hd.2

end Effects

/-! ### Yields that are taken -/

section Yields

variable {env : Env} {walk : Walk} {selector : Option Expr} {rs ys : List Ref} {c : Case}
  {cases : List Case} {s s' u u' : State} {n k : Nat} {yields : RefSet}

/-- After the cases of a switch no yielded value is left. -/
theorem runYieldingCases_leaves_none
    (h : runYieldingCases env walk rs (c :: cases) s = .ok ys s') :
    ∀ r ∈ s'.refs, r.kind ≠ .yielded := by
  induction cases generalizing c s ys with
  | nil =>
    obtain ⟨⟨⟩, s₁, -, hrest⟩ := bind_eq_ok.mp h
    obtain ⟨rs₁, s₂, htake, ⟨⟩⟩ := bind_eq_ok.mp hrest
    obtain ⟨-, -, rfl⟩ := takeAll_eq_ok.mp htake
    intro r hr
    change r ∈ (s₁.refs.extract env.table env.ties .yielded fun _ => true).2 at hr
    exact (RefSet.mem_extract.mp hr).2
  | cons c' cases ih =>
    obtain ⟨⟨⟩, s₁, -, hrest⟩ := bind_eq_ok.mp h
    obtain ⟨rs₁, s₂, -, hrest⟩ := bind_eq_ok.mp hrest
    obtain ⟨ys', s₃, hcases, ⟨⟩⟩ := bind_eq_ok.mp hrest
    exact ih hcases

/-- All yielded values that one state holds more than another one are taken. -/
theorem takeAll_yielded (h : Similar false yields s u) (hyields : ∀ r ∈ yields, r.kind = .yielded)
    (htake : takeAll env .yielded s = .ok rs s') :
    ∃ rs' u', takeAll env .yielded u = .ok rs' u' ∧ Similar false .empty s' u' ∧
      ∀ r, r ∈ rs ↔ r ∈ rs' ∨ r ∈ yields := by
  obtain ⟨hlist, rfl, rfl⟩ := takeAll_eq_ok.mp htake
  refine ⟨_, _, takeAll_eq_ok.mpr ⟨h.isListable hlist, rfl, rfl⟩, { h with refs := fun r => ?_ },
    fun r => ?_⟩
  · simp only [RefSet.mem_extract, RefSet.not_mem_empty, or_false, h.refs]
    exact and_congr_left fun hk => or_iff_left fun hr => hk (hyields r hr)
  · simp only [RefSet.mem_find, h.refs, and_true, or_and_right]
    exact or_congr_right ⟨And.left, fun hr => ⟨hr, hyields r hr⟩⟩

/-- The selector and the first case pass over the yielded values of outer switches.  They are among
what is taken after the first case, and the other cases do not see them any more. -/
theorem runYieldingCases_takes (hk : n + yields.size ≤ k)
    (hyields : ∀ r ∈ yields, r.kind = .yielded) (hcase : ¬(Node.switchCase c).HasSwitch)
    (h : Similar false yields s u)
    (hrun : runYieldingCases env (exec env n) rs (c :: cases) s = .ok ys s') :
    ∃ ys' u', runYieldingCases env (exec env k) rs (c :: cases) u = .ok ys' u' ∧
      Similar false .empty s' u' ∧ ∀ r, r ∈ ys ↔ r ∈ ys' ∨ r ∈ yields := by
  have hw := World.all_closed env.table env.catalog
  obtain ⟨⟨⟩, s₁, hfirst, hrest⟩ := bind_eq_ok.mp hrun
  obtain ⟨rs₁, s₂, htake, hrest⟩ := bind_eq_ok.mp hrest
  obtain ⟨ys₁, s₃, hothers, ⟨⟩⟩ := bind_eq_ok.mp hrest
  have hprogram : Program (World.all env.table env.catalog)
      (.only fun n => (Node.switchCase c).Within n) .idle
      (fun m => runCase (World.env _ m) m.walk rs c) (fun _ => True) .idle :=
    program_runCase hw trivial (fun t ht => Effects.covers_only (.single ht))
      fun _ _ => ⟨trivial, trivial, fun _ _ => trivial⟩
  have hignores : (Effects.only fun n => (Node.switchCase c).Within n).Ignores yields :=
    Effects.ignores_only (fun r hr => .inr (hyields r hr)) fun n hn =>
      (Node.ignores_yields hyields hcase).within hn
  obtain ⟨u₁, hfirst', hsim₁⟩ :=
    hprogram.similar (exec_forgets n k) false yields s u hk hignores h () s₁ hfirst
  obtain ⟨rs₁', u₂, htake', hsim₂, hmem⟩ := takeAll_yielded hsim₁ hyields htake
  -- from here on the two states are the same
  have hcases : Program (World.all env.table env.catalog) (.inside fun _ => True) .idle
      (fun m => runYieldingCases (World.env _ m) m.walk rs cases) _ .idle :=
    program_runYieldingCases hw (fun _ _ => trivial)
      (fun _ _ _ _ => Effects.covers_inside trivial)
      (fun _ _ => ⟨trivial, trivial, fun _ _ => trivial⟩) trivial
  obtain ⟨u₃, hrest', hsim₃⟩ := hcases.similar (exec_forgets n k) false .empty s₂ u₂
    (Nat.le_of_add_right_le hk) (Effects.ignores_empty _) hsim₂ ys₁ s' hothers
  refine ⟨rs₁' ++ ys₁, u₃, bind_eq_ok.mpr ⟨(), u₁, hfirst', bind_eq_ok.mpr ⟨rs₁', u₂, htake',
    bind_eq_ok.mpr ⟨ys₁, u₃, hrest', rfl⟩⟩⟩, hsim₃, fun r => ?_⟩
  simp only [List.mem_append, hmem, or_right_comm]

/-- References pushed as results, and handed on to the scope outside. -/
theorem mem_promoted {refs refs' : RefSet} {ys ys' : List Ref} {d : Int}
    (hrefs : ∀ r, r ∈ refs ↔ r ∈ refs') (hys : ∀ r, r ∈ ys ↔ r ∈ ys' ∨ r ∈ yields) (r : Ref) :
    r ∈ (refs.insertAll (ys.map (·.asExpr d))).replaceExprs d
        (fun r => some (r.asExpr (d - 1))) ↔
      r ∈ (refs'.insertAll (ys'.map (·.asExpr d))).replaceExprs d
        (fun r => some (r.asExpr (d - 1))) ∨ ∃ y ∈ yields, y.asExpr (d - 1) = r := by
  have hpushed (x : Ref) : x ∈ refs.insertAll (ys.map (·.asExpr d)) ↔
      x ∈ refs'.insertAll (ys'.map (·.asExpr d)) ∨ ∃ y ∈ yields, y.asExpr d = x := by
    simp only [RefSet.mem_insertAll, List.mem_map, hys, hrefs, or_and_right, exists_or]
    exact or_right_comm
  simp only [RefSet.mem_replaceExprs, hpushed]
  constructor
  · rintro (⟨x, hx | ⟨y, hy, rfl⟩, hrole, rfl⟩ | ⟨hr | ⟨y, -, rfl⟩, hrole⟩)
    · exact .inl (.inl ⟨x, hx, hrole, rfl⟩)
    · exact .inr ⟨y, hy, rfl⟩
    · exact .inl (.inr ⟨hr, hrole⟩)
    · exact absurd rfl hrole
  · rintro ((⟨x, hx, hrole, rfl⟩ | ⟨hr, hrole⟩) | ⟨y, hy, rfl⟩)
    · exact .inl ⟨x, .inl hx, hrole, rfl⟩
    · exact .inr ⟨.inl hr, hrole⟩
    · exact .inl ⟨y.asExpr d, .inr ⟨y, hy, rfl⟩, rfl, rfl⟩

theorem switchValue_eq_ok : switchValue env walk selector cases s = .ok () s' ↔
    ∃ rs ys u v, value env walk selector { s with depth := s.depth + 1 } = .ok rs u ∧
      runYieldingCases env walk rs cases u = .ok ys v ∧
      (v.refs.insertAll (ys.map (·.asExpr v.depth))).isListable env.table = true ∧
      s' = { v with
        refs := (v.refs.insertAll (ys.map (·.asExpr v.depth))).replaceExprs v.depth
          fun r => some (r.asExpr (v.depth - 1))
        depth := v.depth - 1 } := by
  constructor
  · intro h
    obtain ⟨s₁, s₂, hbody, hpromote, rfl⟩ := inScope_eq_ok.mp h
    obtain ⟨rs, u, hvalue, hrest⟩ := bind_eq_ok.mp hbody
    obtain ⟨ys, v, hcases, ⟨⟩⟩ := bind_eq_ok.mp hrest
    obtain ⟨hlist, rfl⟩ := promoteResult_eq_ok.mp hpromote
    exact ⟨rs, ys, u, v, hvalue, hcases, hlist, rfl⟩
  · rintro ⟨rs, ys, u, v, hvalue, hcases, hlist, rfl⟩
    have hbody : (do
        let rs ← value env walk selector
        let yields ← runYieldingCases env walk rs cases
        push yields : Interp Unit) { s with depth := s.depth + 1 } =
          .ok () { v with refs := v.refs.insertAll (ys.map (·.asExpr v.depth)) } :=
      bind_eq_ok.mpr ⟨rs, u, hvalue, bind_eq_ok.mpr ⟨ys, v, hcases, rfl⟩⟩
    exact inScope_eq_ok.mpr ⟨_, _, hbody, promoteResult_eq_ok.mpr ⟨hlist, rfl⟩, rfl⟩

end Yields

/-- What a switch takes.  Let a switch with a value be interpreted in a state in which `yields` have
been yielded for outer switches.  If it has a case, then no yielded value is left after it.  If
moreover no other switch with a value stands in its selector or in its first case, then it comes to
its end without them as well, and with them it has the same value and further all of them. -/
theorem switch_takes_yields (env : Env) (fuel : Nat) (span : Span) (selector : Option Expr)
    (cases : List Case) (s s' : State) (yields : RefSet)
    (hyields : ∀ r ∈ yields, r.kind = .yielded)
    (hrun : exec env fuel (.expr (.switchExpr span selector cases)) (s.plus yields) = .ok () s') :
    (cases ≠ [] → ∀ r ∈ s'.refs, r.kind ≠ .yielded) ∧
    ((∀ e, selector = some e → ¬(Node.expr e).HasSwitch) →
      (∀ c, cases.head? = some c → ¬(Node.switchCase c).HasSwitch) →
      ∃ n t, exec env n (.expr (.switchExpr span selector cases)) s = .ok () t ∧
        s'.pending = t.pending ∧
        ∀ r, r ∈ s'.refs ↔ r ∈ t.refs ∨
          (cases = [] ∧ r ∈ yields ∨ cases ≠ [] ∧ ∃ y ∈ yields, y.asExpr s.depth = r)) := by
  have hdepth : s'.depth = s.depth :=
    (exec_lawful (World.all_closed env.table env.catalog) env.checked env.guard env.ties fuel _ _ _
      trivial (World.all_tracked _) hrun).2.depth
  obtain _ | n := fuel
  · cases hrun
  obtain ⟨rs, ys, u, v, hvalue, hcases, hlist, rfl⟩ := switchValue_eq_ok.mp hrun
  refine ⟨fun hne r hr => ?_, fun hselector hcase => ?_⟩
  · obtain ⟨c, cases, rfl⟩ := List.exists_cons_of_ne_nil hne
    have hnone := runYieldingCases_leaves_none hcases
    rcases RefSet.mem_replaceExprs.mp hr with ⟨x, -, -, rfl⟩ | ⟨hr, -⟩
    · exact nofun
    · rcases RefSet.mem_insertAll.mp hr with hr | hr
      · obtain ⟨x, -, rfl⟩ := List.mem_map.mp hr
        exact nofun
      · exact hnone r hr
  · have hprogram : Program (World.all env.table env.catalog)
        (.only fun n => ∃ e, selector = some e ∧ (Node.expr e).Within n) .idle
        (fun m => value (World.env _ m) m.walk selector) _ .idle :=
      program_value fun e he t ht => Effects.covers_only ⟨e, he, ht ▸ .refl⟩
    have hignores : (Effects.only fun n => ∃ e, selector = some e ∧
        (Node.expr e).Within n).Ignores yields :=
      Effects.ignores_only (fun r hr => .inr (hyields r hr)) fun n ⟨e, he, hn⟩ =>
        (Node.ignores_yields hyields (hselector e he)).within hn
    obtain ⟨u', hvalue', hsim⟩ :=
      hprogram.similar (exec_forgets n (n + yields.size)) false yields _ _ (Nat.le_refl _)
        hignores (s.plus_similar yields).deeper rs u hvalue
    cases cases with
    | nil =>
      cases hcases
      have hextra : ∀ r ∈ yields, r.kind ≠ .expr := fun r hr => by simp [hyields r hr]
      refine ⟨n + yields.size + 1, _, switchValue_eq_ok.mpr ⟨rs, [], u', u', hvalue', rfl,
        hsim.isListable hlist, rfl⟩, hsim.pending.symm, fun r => ?_⟩
      refine (RefSet.mem_replaceExprs_or hextra hsim.refs r).trans ?_
      simp [hsim.depth, RefSet.insertAll]
    | cons c cases =>
      obtain ⟨ys', v', hcases', hsim', hys⟩ :=
        runYieldingCases_takes (Nat.le_refl _) hyields (hcase c rfl) hsim hcases
      have hlist' : (v'.refs.insertAll (ys'.map (·.asExpr v'.depth))).isListable env.table =
          true := by
        refine RefSet.isListable_of_subset (fun r hr => ?_) hlist
        rw [hsim'.depth] at hr
        rcases RefSet.mem_insertAll.mp hr with hr | hr
        · obtain ⟨x, hx, rfl⟩ := List.mem_map.mp hr
          exact RefSet.mem_insertAll.mpr (.inl (List.mem_map.mpr ⟨x, (hys x).mpr (.inl hx), rfl⟩))
        · exact RefSet.mem_insertAll.mpr (.inr (hsim'.mem hr))
      refine ⟨n + yields.size + 1, _, switchValue_eq_ok.mpr ⟨rs, ys', u', v', hvalue', hcases',
        hlist', rfl⟩, hsim'.pending.symm, fun r => ?_⟩
      have hpromoted := mem_promoted (d := v.depth) hsim'.refs_iff hys r
      change v.depth - 1 = s.depth at hdepth
      simpa [hsim'.depth, hdepth] using hpromoted

/-! ### A switch inside another one -/

/-- The switch `switch (0) \x7b default: yield null; \x7d`. -/
def nullSwitch : Expr :=
  .switchExpr default (some (.literal default "0"))
    [⟨default, [], [], none, [some (.yieldStmt default (some (.literal default "null")))]⟩]

theorem not_hasSwitch_literal {span : Span} {text : String} :
    ¬(Node.expr (.literal span text)).HasSwitch :=
  Node.not_hasSwitch nofun (fun _ hc => absurd hc List.not_mem_nil)

/-- A switch that yields `null` has the instance as its value if it was yielded before. -/
theorem nullSwitch_takes_instance :
    ∃ s', exec { table := {}, catalog := {} } 5 (.expr nullSwitch)
        ((State.start none).plus (.ofList [⟨.yielded, none, .direct⟩])) = .ok () s' ∧
      (∀ r ∈ s'.refs, r.kind ≠ .yielded) ∧ ⟨.expr 0, none, .direct⟩ ∈ s'.refs := by
  refine ⟨_, rfl, ?_⟩
  obtain ⟨hnone, htakes⟩ := switch_takes_yields { table := {}, catalog := {} } 5 default
    (some (.literal default "0"))
    [⟨default, [], [], none, [some (.yieldStmt default (some (.literal default "null")))]⟩]
    (.start none) _ (.ofList [⟨.yielded, none, .direct⟩]) (by decide) rfl
  have hselector : ∀ e, some (Expr.literal default "0") = some e → ¬(Node.expr e).HasSwitch := by
    rintro _ ⟨⟩
    exact not_hasSwitch_literal
  obtain ⟨n, t, -, -, hiff⟩ := htakes hselector <| by
    rintro _ ⟨⟩
    exact Node.not_hasSwitch nofun <| List.forall_mem_singleton.mpr <|
      Node.not_hasSwitch nofun <| List.forall_mem_singleton.mpr not_hasSwitch_literal
  exact ⟨hnone nofun, (hiff _).mpr (.inr (.inr ⟨nofun, ⟨.yielded, none, .direct⟩, by decide, rfl⟩))⟩

/-- What has been yielded for the outer switch is gone after an inner switch, and has become its
value, which is nothing otherwise. -/
theorem inner_switch_steals :
    (∃ s', exec { table := {}, catalog := {} } 5 (.expr nullSwitch)
        ((State.start none).plus (.ofList [⟨.yielded, none, .direct⟩])) = .ok () s' ∧
      ⟨.yielded, none, .direct⟩ ∉ s'.refs ∧ ⟨.expr 0, none, .direct⟩ ∈ s'.refs) ∧
    ∃ t, exec { table := {}, catalog := {} } 5 (.expr nullSwitch) (.start none) = .ok () t ∧
      ∀ r ∈ t.refs, r.kind ≠ .expr :=
  ⟨⟨_, rfl, by decide, by decide⟩, _, rfl, by decide⟩

end Interp

end EarlyEscape
