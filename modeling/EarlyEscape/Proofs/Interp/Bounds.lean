import EarlyEscape.Proofs.Interp.Handlers
import Mathlib.Data.Finset.Card
import Mathlib.Data.Set.Finite.Basic

/-!
# A finite world

The identifiers that come up when a program is interpreted are those of its symbol table and of its
nodes, and there are finitely many of both.  Bounds on sizes say so without listing them: an
identifier in a table or a node is smaller than its size.

## Main definitions

* `Interp.World.sized` : the world of nodes of bounded size.

## Main results

* `Interp.World.sized_closed` : a world that is large enough for the table and the catalog is
  closed.
-/

namespace EarlyEscape

/-! ### Identifiers in a symbol table -/

private theorem getD_mem_or_eq {α : Type} (a : Array α) (i : Nat) (d : α) :
    a.getD i d ∈ a ∨ a.getD i d = d := by
  rw [Array.getD_eq_getD_getElem?]
  cases h : a[i]? with
  | none => exact .inr rfl
  | some x => exact .inl (Array.mem_of_getElem? h)

theorem ClassId.index_lt (k : ClassId) : k.index < sizeOf (some k) := by
  obtain ⟨i⟩ := k
  simp only [Option.some.sizeOf_spec, ClassId.mk.sizeOf_spec, sizeOf_nat]
  omega

theorem ClassInfo.sizeOf_lt (info : ClassInfo) :
    sizeOf info.elem < sizeOf info ∧ sizeOf info.owner < sizeOf info := by
  cases info
  simp only [ClassInfo.mk.sizeOf_spec]
  omega

theorem MethodInfo.sizeOf_owner_lt (info : MethodInfo) : sizeOf info.owner < sizeOf info := by
  cases info
  simp only [MethodInfo.mk.sizeOf_spec]
  omega

theorem VarInfo.sizeOf_lt (info : VarInfo) :
    sizeOf info.type < sizeOf info ∧ sizeOf info.owner < sizeOf info := by
  cases info
  simp only [VarInfo.mk.sizeOf_spec]
  omega

namespace SymbolTable

variable (t : SymbolTable)

theorem sizeOf_lt :
    sizeOf t.classes < sizeOf t ∧ sizeOf t.methods < sizeOf t ∧ sizeOf t.vars < sizeOf t := by
  cases t
  simp only [SymbolTable.mk.sizeOf_spec]
  omega

theorem cls_cases (c : ClassId) : sizeOf (t.cls c) < sizeOf t ∨ t.cls c = {} :=
  (getD_mem_or_eq t.classes c.index {}).imp_left fun h =>
    Nat.lt_trans (Array.sizeOf_lt_of_mem h) t.sizeOf_lt.1

theorem method_cases (m : MethodId) : sizeOf (t.method m) < sizeOf t ∨ t.method m = {} :=
  (getD_mem_or_eq t.methods m.index {}).imp_left fun h =>
    Nat.lt_trans (Array.sizeOf_lt_of_mem h) t.sizeOf_lt.2.1

theorem var_cases (v : VarId) : sizeOf (t.var v) < sizeOf t ∨ t.var v = {} :=
  (getD_mem_or_eq t.vars v.index {}).imp_left fun h =>
    Nat.lt_trans (Array.sizeOf_lt_of_mem h) t.sizeOf_lt.2.2

variable {t} {k : ClassId}

theorem index_lt_of_elem {c : ClassId} (h : (t.cls c).elem = some k) : k.index < sizeOf t := by
  rcases t.cls_cases c with hsize | hblank
  · have hinfo := (t.cls c).sizeOf_lt.1
    rw [h] at hinfo
    exact Nat.lt_trans k.index_lt (Nat.lt_trans hinfo hsize)
  · rw [hblank] at h
    cases h

theorem index_lt_of_type {v : VarId} (h : (t.var v).type = some k) : k.index < sizeOf t := by
  rcases t.var_cases v with hsize | hblank
  · have hinfo := (t.var v).sizeOf_lt.1
    rw [h] at hinfo
    exact Nat.lt_trans k.index_lt (Nat.lt_trans hinfo hsize)
  · rw [hblank] at h
    cases h

theorem index_lt_of_methodOwner {m : MethodId} (h : (t.method m).owner = some k) :
    k.index < sizeOf t := by
  rcases t.method_cases m with hsize | hblank
  · have hinfo := (t.method m).sizeOf_owner_lt
    rw [h] at hinfo
    exact Nat.lt_trans k.index_lt (Nat.lt_trans hinfo hsize)
  · rw [hblank] at h
    cases h

/-- A class that owns a symbol comes from the table. -/
theorem index_lt_of_owner? {s : Symbol} (h : t.owner? s = some (.cls k)) : k.index < sizeOf t := by
  have hk : k.index < sizeOf (some (Symbol.cls k)) := by
    have hlt := k.index_lt
    simp only [Option.some.sizeOf_spec, Symbol.cls.sizeOf_spec] at hlt ⊢
    omega
  cases s with
  | package p => cases h
  | cls c =>
    have h : (t.cls c).owner = some (.cls k) := h
    rcases t.cls_cases c with hsize | hblank
    · have hinfo := (t.cls c).sizeOf_lt.2
      rw [h] at hinfo
      exact Nat.lt_trans hk (Nat.lt_trans hinfo hsize)
    · rw [hblank] at h
      cases h
  | method m =>
    obtain ⟨c, hc, ⟨⟩⟩ := Option.map_eq_some_iff.mp h
    exact index_lt_of_methodOwner hc
  | var v =>
    have h : (t.var v).owner = some (.cls k) := h
    rcases t.var_cases v with hsize | hblank
    · have hinfo := (t.var v).sizeOf_lt.2
      rw [h] at hinfo
      exact Nat.lt_trans hk (Nat.lt_trans hinfo hsize)
    · rw [hblank] at h
      cases h

theorem index_lt_of_mem_tail {n : Nat} {s : Symbol}
    (h : Symbol.cls k ∈ (t.ownersUpTo n s).tail) : k.index < sizeOf t := by
  induction n generalizing s with
  | zero => simp [ownersUpTo] at h
  | succ n ih =>
    simp only [ownersUpTo, List.tail_cons] at h
    cases ho : t.owner? s with
    | none => simp [ho] at h
    | some o =>
      simp only [ho] at h
      cases n with
      | zero => simp [ownersUpTo] at h
      | succ n =>
        rcases List.mem_cons.mp h with rfl | h
        · exact index_lt_of_owner? ho
        · exact ih h

/-- A class around a class comes from the table. -/
theorem index_lt_of_around {c : ClassId}
    (h : k ∈ (t.owners (.cls c)).tail.filterMap Symbol.class?) : k.index < sizeOf t := by
  obtain ⟨s, hs, hk⟩ := List.mem_filterMap.mp h
  cases s with
  | cls c' =>
    cases hk
    exact index_lt_of_mem_tail hs
  | _ => cases hk

end SymbolTable

/-! ### Identifiers in a node -/

namespace Node

/-- A type that a node names is smaller than the node. -/
theorem index_lt_of_mem_types {n : Node} {k : ClassId} (h : some k ∈ n.types) :
    k.index < sizeOf n := by
  obtain ⟨i⟩ := k
  unfold types at h
  split at h
  case h_8 d =>
    obtain ⟨id, span, sym, annotations, members⟩ := d
    simp only [List.mem_singleton] at h
    subst h
    simp only [Node.stmt.sizeOf_spec, Stmt.classDecl.sizeOf_spec, ClassDecl.mk.sizeOf_spec,
      Option.some.sizeOf_spec, ClassId.mk.sizeOf_spec, sizeOf_nat]
    omega
  all_goals simp only [List.mem_singleton, List.not_mem_nil] at h
  all_goals subst h
  all_goals simp
  all_goals omega

theorem sizeOf_le_of_runs {n c : Node} (h : n.Runs c) : sizeOf c ≤ sizeOf n := by
  induction h with
  | refl => exact Nat.le_refl _
  | tail _ hc ih => exact Nat.le_trans (Nat.le_of_lt (sizeOf_lt_of_mem_children hc.2)) ih

/-- A variable that a node assigns or declares is smaller than the node. -/
theorem Targets.index_lt {n : Node} {v : VarId} (h : n.Targets v) : v.index < sizeOf n := by
  obtain ⟨i⟩ := v
  cases h with
  | @assign span inner lhs rhs name v h =>
    cases lhs with
    | none => simp [unparen?] at h
    | some x =>
      have hle := sizeOf_le_of_runs (runs_of_unparen? h)
      simp only [Node.expr.sizeOf_spec, Expr.ident.sizeOf_spec, Expr.assign.sizeOf_spec,
        Option.some.sizeOf_spec, Symbol.var.sizeOf_spec, VarId.mk.sizeOf_spec, sizeOf_nat] at hle ⊢
      omega
  | @declare d v h =>
    obtain ⟨span, sym, annotations, init⟩ := d
    cases h
    simp only [Node.stmt.sizeOf_spec, Stmt.varDecl.sizeOf_spec, VarDecl.mk.sizeOf_spec,
      Option.some.sizeOf_spec, VarId.mk.sizeOf_spec, sizeOf_nat]
    omega

end Node

theorem MethodDecl.index_lt (d : MethodDecl) : d.id.index < sizeOf (Node.method d) := by
  obtain ⟨⟨i⟩, span, sym, annotations, params, body⟩ := d
  simp only [Node.method.sizeOf_spec, MethodDecl.mk.sizeOf_spec, DeclId.mk.sizeOf_spec, sizeOf_nat]
  omega

theorem ClassDecl.index_lt (d : ClassDecl) : d.id.index < sizeOf (Node.ofClassDecl d) := by
  obtain ⟨⟨i⟩, span, sym, annotations, members⟩ := d
  simp only [Node.stmt.sizeOf_spec, Stmt.classDecl.sizeOf_spec, ClassDecl.mk.sizeOf_spec,
    DeclId.mk.sizeOf_spec, sizeOf_nat]
  omega

/-! ### The world of nodes of bounded size -/

namespace Interp

/-- The world of nodes of size at most `n` and of smaller identifiers. -/
def World.sized (t : SymbolTable) (cat : Catalog) (n : Nat) : World where
  table := t
  catalog := cat
  nodes c := sizeOf c ≤ n
  types c := ∀ k, c = some k → k.index < n
  inds i := i.isEmpty = false
  vars v := v.index < n

/-- A world that is large enough for the table and the catalog is closed. -/
theorem World.sized_closed {t : SymbolTable} {cat : Catalog} {n : Nat} (ht : sizeOf t ≤ n)
    (hcat : ∀ s e, (s, e) ∈ cat.entries →
      sizeOf (Node.ofClassDecl e.cls) ≤ n ∧ sizeOf (Node.method e.decl) ≤ n) :
    (World.sized t cat n).Closed where
  below _ _ hc hd := Nat.le_trans (Nat.le_of_lt hd.sizeOf_lt) hc
  entry := hcat
  named _ hc _ hk _ hi := Nat.lt_of_lt_of_le (Node.index_lt_of_mem_types (hi ▸ hk)) hc
  var _ _ hk := Nat.lt_of_lt_of_le (SymbolTable.index_lt_of_type hk) ht
  owner _ _ hk := Nat.lt_of_lt_of_le (SymbolTable.index_lt_of_methodOwner hk) ht
  elem _ _ hk := Nat.lt_of_lt_of_le (SymbolTable.index_lt_of_elem hk) ht
  enclosing _ _ hk :=
    Nat.lt_of_lt_of_le (SymbolTable.index_lt_of_around (List.mem_of_head? hk)) ht
  enclosingSubclass _ _ _ hk :=
    Nat.lt_of_lt_of_le (SymbolTable.index_lt_of_around (List.mem_of_find?_eq_some hk)) ht
  ind _ _ _ hi := hi
  target _ hc _ hv := Nat.lt_of_lt_of_le hv.index_lt hc

/-- For every program there is a world that is large enough. -/
theorem World.exists_sized_closed (t : SymbolTable) (cat : Catalog) :
    ∃ n, ∀ m, n ≤ m → (World.sized t cat m).Closed := by
  refine ⟨sizeOf t + sizeOf cat.entries + 2, fun m hm => sized_closed (by omega) ?_⟩
  intro s e he
  have hlt := List.sizeOf_lt_of_mem he
  obtain ⟨cls, decl, analyzable, invokable⟩ := e
  simp only [Prod.mk.sizeOf_spec, Catalog.Entry.mk.sizeOf_spec, Node.stmt.sizeOf_spec,
    Stmt.classDecl.sizeOf_spec, Node.method.sizeOf_spec] at hlt ⊢
  omega

end Interp

end EarlyEscape
