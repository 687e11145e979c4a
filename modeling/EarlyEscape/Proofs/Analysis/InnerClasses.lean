import EarlyEscape.Proofs.Analysis.Session
import EarlyEscape.Proofs.Catalog.Classification
import EarlyEscape.Proofs.Interp.InnerClasses
import Mathlib.Data.Fintype.Card

/-!
# Sessions over nested inner classes

The constructor of a class creates an instance of an inner class, whose constructor creates an
instance of an inner class of that one, and so on, until the constructor of the innermost class
passes the outermost instance to unknown code.  Each constructor on the way is simulated.  But the
indirections tell the direct outer instance from all that is further outside no better than from an
element of an array, so that the instance is found when there is one inner class and missed when
there are more.

## Main definitions

* `Analysis.Layer` : a class with its constructor.
* `Analysis.Nested` : classes one inside the other whose constructors create each other.

## Main results

* `Analysis.Nested.exec` : the run from the constructor of any of the classes inwards.
* `Analysis.constructor_passOutermost` : the session over the outermost one.
-/

namespace EarlyEscape

/-! ### Chains of owners -/

namespace SymbolTable

variable {t : SymbolTable} {c outer : ClassId} {k : Nat}

theorem index_lt_of_owner (h : (t.cls c).owner ≠ none) : c.index < t.classes.size := by
  by_contra hlt
  refine h ?_
  rw [cls, Array.getD, dif_neg hlt]

theorem enclosing?_of_owner (h : (t.cls c).owner = some (.cls outer)) :
    t.enclosing? c = some outer := by
  have hsize : ∃ n, t.size = n + 1 := by
    have hlt := index_lt_of_owner (t := t) (c := c) (by simp [h])
    exact ⟨t.size - 1, by unfold size; omega⟩
  obtain ⟨n, hn⟩ := hsize
  simp [enclosing?, owners, ownersUpTo, owner?, h, hn, Symbol.class?]

section Chain

variable (cls : Nat → ClassId)
  (howner : ∀ i < k, (t.cls (cls (i + 1))).owner = some (.cls (cls i)))

include howner

/-- An owner chain of sufficient length comes to the outermost class. -/
theorem mem_ownersUpTo_of_chain {i n : Nat} (hi : i ≤ k) (hn : i < n) :
    Symbol.cls (cls 0) ∈ t.ownersUpTo n (.cls (cls i)) := by
  induction i generalizing n with
  | zero =>
    obtain ⟨n, rfl⟩ : ∃ m, n = m + 1 := ⟨n - 1, by omega⟩
    exact List.mem_cons_self
  | succ i ih =>
    obtain ⟨n, rfl⟩ : ∃ m, n = m + 1 := ⟨n - 1, by omega⟩
    refine List.mem_cons_of_mem _ ?_
    rw [show t.owner? (.cls (cls (i + 1))) = some (.cls (cls i)) from howner i hi]
    exact ih (by omega) (by omega)

/-- Classes declared one inside the other, no two of them the same, are enclosed by the
outermost. -/
theorem isEnclosedBy_of_chain (hne : ∀ i ≤ k, ∀ j ≤ k, cls i = cls j → i = j) :
    t.isEnclosedBy (some (cls k)) (some (cls 0)) = true := by
  have hsize : k ≤ t.classes.size := by
    let f (i : Fin k) : Fin t.classes.size :=
      ⟨(cls (i + 1)).index, index_lt_of_owner (by simp [howner i i.2])⟩
    have hinj : Function.Injective f := by
      intro i j hij
      have hindex : (cls (i + 1)).index = (cls (j + 1)).index := congrArg Fin.val hij
      have hcls : cls (i + 1) = cls (j + 1) := congrArg ClassId.mk hindex
      exact Fin.ext (Nat.succ.inj (hne _ i.2 _ j.2 hcls))
    simpa using Fintype.card_le_of_injective f hinj
  have hmem : Symbol.cls (cls 0) ∈ t.owners (.cls (cls k)) :=
    mem_ownersUpTo_of_chain cls howner (Nat.le_refl k) (by unfold size; omega)
  refine List.contains_iff_mem.mpr (List.mem_filterMap.mpr ⟨_, hmem, rfl⟩)

end Chain

/-- A class that is declared in a package, or nowhere, has a name. -/
theorem classText?_isSome_of_topLevel
    (h : ∀ o, (t.cls c).owner = some o → ∃ p, o = .package p) :
    (t.classText? (some c)).isSome = true := by
  have hstray : t.isStray c = false := by
    unfold isStray owners ownersUpTo
    rw [show t.owner? (.cls c) = (t.cls c).owner from rfl]
    cases ho : (t.cls c).owner with
    | none => rfl
    | some o =>
      obtain ⟨p, rfl⟩ := h o ho
      cases t.size with
      | zero => rfl
      | succ n => rfl
  simp [classText?, qualifiedName?, hstray]

end SymbolTable

namespace Analysis

open Interp

/-! ### Relations to the instance -/

/-- How the receiver of the constructor of the `i`-th class is related to the instance of the
outermost one. -/
def relation : Nat → Indirections
  | 0 => .direct
  | 1 => .ofList [Indirection.outer]
  | _ + 2 => .indirect

theorem toOuter_relation (i : Nat) (c c' : Option ClassId) :
    Ref.toOuter ⟨.this, c, relation i⟩ c' = some ⟨.this, c', relation (i + 1)⟩ := by
  have hind : BitMask.ofList ((relation i).toList.filterMap fun i =>
      if i = Indirection.direct then some Indirection.outer else some Indirection.indirect) =
      relation (i + 1) := by
    match i with
    | 0 | 1 => decide +kernel
    | _ + 2 =>
      change BitMask.ofList (Indirections.indirect.toList.filterMap fun i =>
        if i = Indirection.direct then some Indirection.outer else some Indirection.indirect) =
        Indirections.indirect
      decide +kernel
  have hne : (relation (i + 1)).isEmpty = false := by
    match i with
    | 0 | _ + 1 => rfl
  simp only [Ref.toOuter, Ref.project]
  rw [hind, hne]
  rfl

/-- Only one step outwards is known to lead to the instance. -/
theorem fromOuter_relation {k : Nat} (hk : 1 ≤ k) (c c' : Option ClassId) :
    Ref.fromOuter ⟨.this, c, relation k⟩ c' =
      if k = 1 then some ⟨.this, c', .direct⟩ else none := by
  have hind : BitMask.ofList ((relation k).toList.filterMap fun i =>
      if i = Indirection.outer then some Indirection.direct else none) =
      if k = 1 then Indirections.direct else .empty := by
    match k with
    | 1 => decide +kernel
    | _ + 2 =>
      change BitMask.ofList (Indirections.indirect.toList.filterMap fun i =>
        if i = Indirection.outer then some Indirection.direct else none) = .empty
      decide +kernel
  simp only [Ref.fromOuter, Ref.project]
  rw [hind]
  split <;> rfl

/-! ### Nested classes -/

/-- A class with a constructor whose code is a single expression. -/
structure Layer where
  cls : ClassId
  decl : ClassDecl
  ctor : MethodId
  code : MethodDecl
  body : Block
  span : Span
  expr : Expr

/-- The class and its constructor are declared like this. -/
structure Layer.Declared (t : SymbolTable) (l : Layer) : Prop where
  sym : l.decl.sym = some l.cls
  code : l.code ∈ l.decl.methods
  named : l.code.sym = some l.ctor
  isConstructor : (t.method l.ctor).isConstructor = true
  notNative : (t.method l.ctor).isNative = false
  notFinal : (t.method l.ctor).isFinal = false
  body : l.code.body = some l.body
  single : l.body.stmts = [some (.exprStmt l.span (some l.expr))]

/-- The first class is an inner class of the second one, the constructor of which creates an
instance of the first. -/
structure Layer.Inner (t : SymbolTable) (inner outer : Layer) : Prop where
  nested : Member.nested inner.decl ∈ outer.decl.members
  owner : (t.cls inner.cls).owner = some (.cls outer.cls)
  hasOuter : (t.cls inner.cls).hasOuter = true
  creates : ∃ span, outer.expr = newInner span inner.cls inner.ctor

/-- The classes `l 0`, ..., `l k` are inner classes one of the other, from a top level class
inwards, and each constructor creates an instance of the next class. -/
structure Nested (t : SymbolTable) (u : CompilationUnit) (k : Nat) (l : Nat → Layer) : Prop where
  outermost : (l 0).decl ∈ u.classes
  topLevel : ∀ o, (t.cls (l 0).cls).owner = some o → ∃ p, o = .package p
  declared : ∀ i ≤ k, (l i).Declared t
  inner : ∀ i < k, (l (i + 1)).Inner t (l i)

/-- The receiver of the constructor of the `i`-th class. -/
def Nested.receiver (l : Nat → Layer) (i : Nat) : Ref := ⟨.this, some (l i).cls, relation i⟩

/-- The state is one in which the constructor of the `i`-th class runs its code and sees nothing but
its receiver and values of variables, and only constructors of the classes outside are running. -/
structure Nested.At (env : Env) (l : Nat → Layer) (i : Nat) (s : State) : Prop where
  receiver : s.refs.HasReceiver env.table (Nested.receiver l i)
  methodClass : s.methodClass = some (l i).cls
  quiet : s.pending = none
  running : ∀ d refs, (d, refs) ∈ s.running → ∀ r ∈ refs, ∃ j ≤ i, r.type = some (l j).cls

/-- The state in which the call of the constructor of the next class starts, if the constructor of
the `i`-th class runs its code in the state `s`. -/
def Nested.entered (l : Nat → Layer) (i : Nat) (s : State) : State :=
  s.called (l i).expr.pos (l (i + 1)).code.id (l (i + 1)).decl.sym
    (.ofList [Nested.receiver l (i + 1)])

/-- In the session over the constructor of the outermost class, the constructor of the `i`-th class
runs its code in the state `s`: the constructors up to it are simulated one inside the other, and
the initializers of each class have come to their end. -/
inductive Nested.Runs (env : Env) (l : Nat → Layer) : Nat → State → Prop
  | outermost : Runs env l 0 (.start (l 0).decl.sym)
  | inner {i n : Nat} {s s₁ : State} (hs : Runs env l i s)
      (hsuppressed : env.catalog.isSuppressed (.method (l (i + 1)).ctor) = false)
      (hinit : runInitializers env (exec env n) (l (i + 1)).decl (Nested.entered l i s) =
        .ok () s₁) :
      Runs env l (i + 1) { s₁ with depth := s₁.depth + 1 }

/-- The initializers of the inner classes, run for the new instances in the session over the
constructor of the outermost class, come to their end without a leak and leave only values of
variables besides the new instance. -/
def Nested.Quiet (env : Env) (l : Nat → Layer) (k : Nat) : Prop :=
  ∀ i < k, ∀ s, Nested.Runs env l i s →
    env.catalog.isSuppressed (.method (l (i + 1)).ctor) = false →
      Settles env (l (i + 1)).decl (Nested.receiver l (i + 1)) (Nested.entered l i s)

namespace Nested

variable {t : SymbolTable} {u : CompilationUnit} {k : Nat} {l : Nat → Layer}

theorem below_of_lt (h : Nested t u k l) {i j : Nat} (hij : i < j) (hj : j ≤ k) :
    (Node.ofClassDecl (l i).decl).Below (.ofClassDecl (l j).decl) := by
  induction j with
  | zero => omega
  | succ j ih =>
    have hstep : (Node.ofClassDecl (l j).decl).Below (.ofClassDecl (l (j + 1)).decl) :=
      Catalog.Builder.below_codeOf (h.inner j hj).nested rfl
    rcases Nat.lt_succ_iff_lt_or_eq.mp hij with hij | rfl
    · exact (ih hij (by omega)).trans hstep
    · exact hstep

theorem below_file (h : Nested t u k l) {i : Nat} (hi : i ≤ k) :
    (Node.file u).Below (.ofClassDecl (l i).decl) := by
  have hfirst : (Node.file u).Below (.ofClassDecl (l 0).decl) :=
    .single (List.mem_map.mpr ⟨_, h.outermost, rfl⟩)
  rcases Nat.eq_zero_or_pos i with rfl | hpos
  · exact hfirst
  · exact hfirst.trans (h.below_of_lt hpos hi)

/-- No two of the classes are the same. -/
theorem eq_of_cls_eq (h : Nested t u k l) (hu : u.Regular) {i j : Nat} (hi : i ≤ k) (hj : j ≤ k)
    (heq : (l i).cls = (l j).cls) : i = j := by
  have hdecl : (l i).decl = (l j).decl := by
    refine List.inj_on_of_nodup_map hu.classes (Catalog.below_file_iff.mp (h.below_file hi))
      (Catalog.below_file_iff.mp (h.below_file hj)) ?_
    rw [(h.declared i hi).sym, (h.declared j hj).sym, heq]
  rcases Nat.lt_trichotomy i j with hij | hij | hij
  · have hlt := (h.below_of_lt hij hj).sizeOf_lt
    rw [hdecl] at hlt
    omega
  · exact hij
  · have hlt := (h.below_of_lt hij hi).sizeOf_lt
    rw [hdecl] at hlt
    omega

end Nested

/-! ### The run inwards -/

section Run

variable {env : Env} {u : CompilationUnit} {lint : Lint} {k : Nat} {l : Nat → Layer} {pos : Pos}

/-- A constructor of the unit is simulated when it is called, unless warnings are suppressed for
it. -/
theorem Layer.Declared.known {l : Layer} (h : l.Declared env.table) (hu : u.Regular)
    (hinside : (Node.file u).Below (.ofClassDecl l.decl))
    (hcat : Catalog.build env.table u lint = .ok env.catalog)
    (hsuppressed : env.catalog.isSuppressed (.method l.ctor) = false) (receiver : List Ref) :
    ∃ e, e.cls = l.decl ∧ e.decl = l.code ∧ Known env (some l.ctor) receiver e l.body := by
  have hclassifies := Catalog.classifies_of_collects hu
    (Catalog.collects_of_build hu.once hu.methods hcat)
  have hdeclares : Catalog.Declares (.file u) l.decl l.code l.ctor :=
    ⟨hinside, h.code, h.named⟩
  obtain ⟨e, he⟩ := Option.isSome_iff_exists.mp
    ((hclassifies.lookup l.ctor).mpr ⟨l.decl, l.code, hdeclares⟩)
  obtain ⟨hcls, hdecl⟩ := (hclassifies.entry l.ctor e he).unique hu.methods hdeclares
  have hinvokable : e.invokable = true :=
    (hclassifies.invokable l.ctor e l.cls he (hcls ▸ h.sym)).mpr (.inr (.inl h.isConstructor))
  refine ⟨e, hcls, hdecl, ?_, ?_, hinvokable, hdecl ▸ h.body⟩
  · simp [isExempt, hsuppressed, SymbolTable.isObjectFinal, h.notFinal, h.notNative]
  · simp [resolve?, he]

/-- The expression passes the instance of the class `outer`, named as an outer instance at the given
position, to a static method of another unit. -/
inductive PassesOuter (t : SymbolTable) (u : CompilationUnit) (outer : ClassId) : Pos → Expr → Prop
  | call {span aspan : Span} {callee : Expr} {m : MethodId} {x : Option Expr}
      {sym : Option Symbol} (hcallee : NamesStatic m callee)
      (hstatic : (t.method m).isStatic = true) (hctor : (t.method m).isConstructor = false)
      (hnative : (t.method m).isNative = false) (howner : (t.method m).owner ≠ some .object)
      (hunit : ∀ d md, ¬Catalog.Declares (.file u) d md m)
      (hname : qualifier? x "this" = some (some outer)) :
      PassesOuter t u outer aspan.pos (.call span (some callee) [some (.select aspan x "this" sym)])

/-- None of the constructors starts with a call of another one of its class. -/
theorem Nested.not_isThisCall (h : Nested env.table u k l) {i : Nat} (hi : i < k)
    (hpasses : PassesOuter env.table u (l 0).cls pos (l k).expr) :
    isThisCall (some (.exprStmt (l (i + 1)).span (some (l (i + 1)).expr))) = false := by
  rcases Nat.lt_or_eq_of_le hi with hlt | rfl
  · obtain ⟨-, -, -, span, hexpr⟩ := h.inner (i + 1) hlt
    rw [hexpr]
    rfl
  · generalize (l (i + 1)).expr = e at hpasses
    cases hpasses with
    | call hcallee =>
      have hname := hcallee.name_ne
      simp only [isReceiverName, Bool.or_eq_false_iff] at hname
      exact hname.1

/-- The constructor of the innermost class records a leak exactly if the next class outside is the
outermost one. -/
theorem Nested.exec_innermost (h : Nested env.table u k l) (hu : u.Regular)
    (hcat : Catalog.build env.table u lint = .ok env.catalog) (hk : 1 ≤ k)
    (hpasses : PassesOuter env.table u (l 0).cls pos (l k).expr) {s : State}
    (hs : At env l k s) :
    exec env 4 (.stmt (.exprStmt (l k).span (some (l k).expr))) s =
      .ok () { s with pending := if k = 1 then some (pos :: s.callStack) else none } := by
  have hne : (l k).cls ≠ (l 0).cls := fun heq => by
    have := h.eq_of_cls_eq hu (Nat.le_refl k) (Nat.zero_le k) heq
    omega
  have henclosed : env.table.isEnclosedBy (some (l k).cls) (some (l 0).cls) = true :=
    SymbolTable.isEnclosedBy_of_chain (fun i => (l i).cls) (fun i hi => (h.inner i hi).owner)
      fun i hi j hj => h.eq_of_cls_eq hu hi hj
  generalize (l k).expr = e at hpasses
  cases hpasses with
  | @call span aspan callee m x sym hcallee hstatic hctor hnative howner hunit hname =>
    obtain ⟨hresolve, hsuppressed⟩ := unknown_of_not_declared hcat hunit
    have hexempt : isExempt env m = false := by
      simp [isExempt, hsuppressed, hnative, SymbolTable.isObjectFinal, howner]
    refine exec_passOuter hs.receiver hs.quiet hs.methodClass hne henclosed hname hcallee hstatic
      hctor hexempt hresolve ?_
    rw [Nested.receiver, fromOuter_relation hk]
    by_cases hone : k = 1
    · have hmeets : Indirections.direct.meets Indirection.direct = true := by decide
      have hdirect : triggersLeak env ⟨.this, some (l 0).cls, .direct⟩ = true :=
        triggersLeak_of_isDirect hmeets
      simp [hone, hdirect]
    · simp [hone]

/-- The seed of the constructor of an inner class has not been seen before. -/
theorem Nested.At.not_cut (h : Nested env.table u k l) (hu : u.Regular)
    (hguard : env.guard = .running) {i : Nat} (hi : i < k) {s : State} (hs : Nested.At env l i s)
    (d : DeclId) {r : Ref} (hr : r.type = some (l (i + 1)).cls) :
    isCut env s d (.ofList [r]) = false := by
  simp only [isCut, hguard, List.any_eq_false, Bool.and_eq_true, not_and]
  rintro ⟨d', refs⟩ hmem - hsame
  obtain ⟨j, hj, htype⟩ :=
    hs.running d' refs hmem r ((RefSet.sameAs_iff.mp hsame r).mp (by simp))
  have := h.eq_of_cls_eq hu hi (by omega) (Option.some.inj (hr.symm.trans htype))
  omega

/-- The constructor of an inner class, after its initializers, is at the next class inwards. -/
theorem Nested.At.next {E : Effects} {i : Nat} {s s₁ : State} (hs : Nested.At env l i s)
    (hcls : (l (i + 1)).decl.sym = some (l (i + 1)).cls)
    (hframe : Frame E (Nested.entered l i s) s₁)
    (hs₁ : s₁.refs.HasReceiver env.table (Nested.receiver l (i + 1))) (hquiet : s₁.pending = none) :
    Nested.At env l (i + 1) { s₁ with depth := s₁.depth + 1 } := by
  refine ⟨hs₁, hframe.methodClass.trans hcls, hquiet, fun d' refs hmem x hx => ?_⟩
  rcases List.mem_cons.mp (hframe.running ▸ hmem) with heq | hmem
  · -- the run of the constructor itself
    cases heq
    obtain rfl : x = Nested.receiver l (i + 1) := by simpa using hx
    exact ⟨i + 1, Nat.le_refl _, rfl⟩
  · obtain ⟨j, hj, htype⟩ := hs.running d' refs hmem x hx
    exact ⟨j, by omega, htype⟩

/-- The run from the constructor of any of the classes inwards.  It comes to the innermost class if
warnings are not suppressed for a constructor on the way, and the trail of a leak consists of the
creations that lead there. -/
theorem Nested.exec (h : Nested env.table u k l) (hu : u.Regular)
    (hcat : Catalog.build env.table u lint = .ok env.catalog) (hguard : env.guard = .running)
    (hk : 1 ≤ k) (hpasses : PassesOuter env.table u (l 0).cls pos (l k).expr)
    (hinits : Nested.Quiet env l k) {i d : Nat} (hd : i + d = k) {s : State} (hs : At env l i s)
    (hruns : Nested.Runs env l i s) :
    ∃ n log, Interp.exec env n (.stmt (.exprStmt (l i).span (some (l i).expr))) s =
      .ok () { s with
        pending := if k = 1 ∧
            ∀ j ∈ List.range' (i + 1) d, env.catalog.isSuppressed (.method (l j).ctor) = false then
          some (pos :: (((List.range' i d).map fun j => (l j).expr.pos).reverse ++ s.callStack))
          else none
        log } := by
  induction d generalizing i s with
  | zero =>
    obtain rfl : i = k := hd
    exact ⟨4, s.log, by simpa using h.exec_innermost hu hcat hk hpasses hs⟩
  | succ d ih =>
    have hi : i < k := by omega
    obtain ⟨-, howner, hhas, span, hexpr⟩ := h.inner i hi
    have hdecl := h.declared (i + 1) hi
    have henclosing := SymbolTable.enclosing?_of_owner howner
    have houter : (Nested.receiver l i).toOuter (some (l (i + 1)).cls) =
        some (Nested.receiver l (i + 1)) := toOuter_relation i _ _
    cases hsuppressed : env.catalog.isSuppressed (.method (l (i + 1)).ctor) with
    | true =>
      have hexempt : isExempt env (l (i + 1)).ctor = true := by simp [isExempt, hsuppressed]
      refine ⟨2, s.log, ?_⟩
      rw [hexpr, exec_newInner_of_exempt hs.receiver hs.methodClass henclosing hhas houter hexempt]
      simp [List.range'_succ, hsuppressed, ← hs.quiet]
    | false =>
      obtain ⟨e, hcls, hcode, hknown⟩ :=
        hdecl.known hu (h.below_file hi) hcat hsuppressed [Nested.receiver l (i + 1)]
      obtain ⟨n₁, s₁, hinit, hs₁, hquiet⟩ := hinits i hi s hruns hsuppressed
      have hframe := frame_runInitializers hinit
      have hinner : At env l (i + 1) { s₁ with depth := s₁.depth + 1 } :=
        Nested.At.next hs hdecl.sym hframe hs₁ hquiet
      obtain ⟨n₂, log, hrun⟩ := ih (by omega) hinner (.inner hruns hsuppressed hinit)
      have hentered : Nested.entered l i s = s.called span.pos e.decl.id e.cls.sym
          (.ofList [Nested.receiver l (i + 1)]) := by
        rw [Nested.entered, hexpr, hcls, hcode]
        rfl
      rw [hentered, ← hcls] at hinit
      have hctor : e.decl.isConstructor env.table = true := by
        simp [hcode, MethodDecl.isConstructor, hdecl.named, hdecl.isConstructor]
      have hstack : s₁.callStack = span.pos :: s.callStack :=
        hframe.callStack.trans (congrArg State.callStack hentered)
      have hpos : (newInner span (l (i + 1)).cls (l (i + 1)).ctor).pos = span.pos := rfl
      refine ⟨max n₁ n₂ + 2, log, ?_⟩
      rw [hexpr]
      refine (exec_newInner hs.receiver hs.methodClass henclosing hhas houter hknown hctor
        hdecl.single (h.not_isThisCall hi hpasses) (Nested.At.not_cut h hu hguard hi hs _ rfl)
        (runInitializers_mono (Nat.le_max_left n₁ n₂) hinit) hs₁ hframe.targetClass
        (exec_of_le (Nat.le_max_right n₁ n₂) hrun)).trans ?_
      simp only [List.range'_succ, List.map_cons, List.reverse_cons, List.forall_mem_cons, hstack,
        hexpr, hpos, hsuppressed, true_and, List.append_assoc, List.singleton_append]

end Run

/-- A session over one statement reports what the statement leaks. -/
theorem session_singleton {env : Env} {fuel : Nat} {cls : Option ClassId} {stmt : Stmt} {s : State}
    (hrun : Interp.exec env fuel (.stmt stmt) (.start cls) = .ok () s)
    (hname : (env.table.classText? cls).isSome = true) :
    (session env fuel cls [some stmt]).stop = none ∧
      (session env fuel cls [some stmt]).trails = s.pending.toList := by
  obtain ⟨name, hname⟩ := Option.isSome_iff_exists.mp hname
  have hall : runUntilLeak (Interp.exec env fuel) [some stmt] (.start cls) = .ok () s := by
    cases hleak : s.pending with
    | none => exact runUntilLeak_of_quiet hrun hleak
    | some trail => exact runUntilLeak_of_leak hrun (by simp [hleak])
  unfold session sessionBy EStateM.run
  rw [hall]
  cases hleak : s.pending with
  | none => simp [hleak]
  | some trail => simp [hleak, hname]

/-- Classes of a unit are nested from a top level class inwards; the constructor of each one creates
an instance of the next, and that of the innermost passes the instance of the outermost to a static
method of another unit.  The initializers of the inner classes, as far as they run in the session
over the constructor of the outermost class, do not leak.  Then this session records a leak, with
the argument and the creation as its trail, if there is one inner class and warnings are not
suppressed for its constructor.  In all other cases it ends without a leak. -/
theorem constructor_passOutermost (t : SymbolTable) (u : CompilationUnit) (lint : Lint)
    (cat : Catalog) (checked : Bool) (ties : TieOrder) (k : Nat) (l : Nat → Layer) (pos : Pos)
    (hu : u.Regular) (hcat : Catalog.build t u lint = .ok cat) (hk : 1 ≤ k) (h : Nested t u k l)
    (hpasses : PassesOuter t u (l 0).cls pos (l k).expr)
    (hinits : Nested.Quiet { table := t, catalog := cat, checked, ties } l k) :
    ∃ n, ∀ fuel, n ≤ fuel →
      let o := constructor { table := t, catalog := cat, checked, ties } fuel (l 0).decl (l 0).code
      o.stop = none ∧ o.trails =
        if k = 1 ∧ cat.isSuppressed (.method (l 1).ctor) = false then [[pos, (l 0).expr.pos]]
        else [] := by
  have hdecl := h.declared 0 (Nat.zero_le k)
  have hstart : Nested.At { table := t, catalog := cat, checked, ties } l 0
      (.start (l 0).decl.sym) := by
    rw [hdecl.sym]
    exact ⟨RefSet.hasReceiver_ofList rfl, rfl, rfl, nofun⟩
  obtain ⟨n, log, hrun⟩ :=
    Nested.exec h hu hcat rfl hk hpasses hinits (Nat.zero_add k) hstart .outermost
  refine ⟨n, fun fuel hfuel => ?_⟩
  have hmore := exec_mono { table := t, catalog := cat, checked, ties } hfuel
    (.stmt (.exprStmt (l 0).span (some (l 0).expr))) (.start (l 0).decl.sym)
  rw [hrun] at hmore
  have hname : (t.classText? (l 0).decl.sym).isSome = true := by
    rw [hdecl.sym]
    exact SymbolTable.classText?_isSome_of_topLevel h.topLevel
  have hsession := session_singleton hmore.ok hname
  simp only [constructor, constructorBy, hdecl.body, hdecl.single]
  refine ⟨hsession.1, hsession.2.trans ?_⟩
  by_cases hone : k = 1
  · cases hsuppressed : cat.isSuppressed (.method (l 1).ctor) <;>
      simp [hone, hsuppressed, State.start]
  · simp [hone]

/-! ### Chains of classes -/

/-- The expression `R.register(C0.this)` with the argument at a position. -/
def registerOutermost (pos : Pos) : Expr :=
  .call default
    (some (.select default (some (.typeName default (some ⟨1⟩))) "register" (some (.method ⟨0⟩))))
    [some (.select ⟨pos, pos⟩ (some (.typeName default (some ⟨2⟩))) "this" none)]

/-- The code of the constructor of `Ci`: `new C(i+1)()` or, in the innermost class `Ck`,
`R.register(C0.this)`. -/
def chainExpr (k i : Nat) : Expr :=
  if i < k then newInner ⟨10 * i + 5, 10 * i + 5⟩ ⟨i + 3⟩ ⟨i + 2⟩
  else registerOutermost (10 * i + 6)

/-- The constructor of `Ci`. -/
def chainConstructor (k : Nat) (i : Nat) : MethodDecl where
  id := ⟨2 * i + 1⟩
  span := default
  sym := some ⟨i + 1⟩
  annotations := []
  params := []
  body := some ⟨default, false, [some (.exprStmt default (some (chainExpr k i)))]⟩

/-- The class `Ci` with the inner classes in it, `d` of them; the inner classes may have further
members. -/
def chainClass (k : Nat) (xs : List Member) (i : Nat) : Nat → ClassDecl
  | 0 =>
    { id := ⟨2 * i⟩, span := default, sym := some ⟨i + 2⟩, annotations := []
      members := .method (chainConstructor k i) :: if i = 0 then [] else xs }
  | d + 1 =>
    { id := ⟨2 * i⟩, span := default, sym := some ⟨i + 2⟩, annotations := []
      members := .method (chainConstructor k i) :: .nested (chainClass k xs (i + 1) d) ::
        if i = 0 then [] else xs }

/-- The unit of the public class `C0` with the inner classes `C1`, ..., `Ck`. -/
def chainUnit (k : Nat) (xs : List Member) : CompilationUnit where
  span := default
  name := "C0.java"
  package := some ⟨0⟩
  module := none
  classes := [chainClass k xs 0 k]

/-- The symbols of the unit and of the class `R` with its static method `register`. -/
def chainTable (k : Nat) : SymbolTable where
  packages := #[{ name := "p" }]
  classes := #[{ name := "Object" },
    { name := "R", owner := some (.package ⟨0⟩), flags := .of [.publicAccess] },
    { name := "C0", owner := some (.package ⟨0⟩), flags := .of [.publicAccess] }] ++
    (Array.range k).map fun i =>
      { name := "C" ++ toString (i + 1), kind := .member, owner := some (.cls ⟨i + 2⟩)
        hasOuter := true }
  methods := #[{ name := "register", owner := some ⟨1⟩, flags := .of [.publicAccess, .static] }] ++
    (Array.range (k + 1)).map fun i =>
      { name := "<init>", owner := some ⟨i + 2⟩, flags := .of [.publicAccess]
        isConstructor := true }

/-- The class `Ci` and its constructor. -/
def chainLayer (k : Nat) (xs : List Member) (i : Nat) : Layer where
  cls := ⟨i + 2⟩
  decl := chainClass k xs i (k - i)
  ctor := ⟨i + 1⟩
  code := chainConstructor k i
  body := ⟨default, false, [some (.exprStmt default (some (chainExpr k i)))]⟩
  span := default
  expr := chainExpr k i

section Chain

variable (k : Nat) (xs : List Member)

theorem cls_chainTable {i : Nat} (hi : i < k) : (chainTable k).cls ⟨i + 3⟩ =
    { name := "C" ++ toString (i + 1), kind := .member, owner := some (.cls ⟨i + 2⟩)
      hasOuter := true } := by
  simp [chainTable, SymbolTable.cls, Array.getElem?_append, hi, show ¬i + 3 < 3 by omega]

theorem method_chainTable {i : Nat} (hi : i ≤ k) : (chainTable k).method ⟨i + 1⟩ =
    { name := "<init>", owner := some ⟨i + 2⟩, flags := .of [.publicAccess]
      isConstructor := true } := by
  simp [chainTable, SymbolTable.method, Array.getElem?_append, Nat.lt_succ_of_le hi]

theorem sym_chainClass (i d : Nat) : (chainClass k xs i d).sym = some ⟨i + 2⟩ := by
  cases d <;> rfl

theorem constructor_mem_chainClass (i d : Nat) :
    chainConstructor k i ∈ (chainClass k xs i d).methods := by
  cases d <;> exact List.mem_cons_self

theorem nested_chain : Nested (chainTable k) (chainUnit k xs) k (chainLayer k xs) where
  outermost := List.mem_singleton_self _
  topLevel o ho := by
    have howner : ((chainTable k).cls ⟨2⟩).owner = some (.package ⟨0⟩) := by
      simp [chainTable, SymbolTable.cls, Array.getElem?_append]
    exact ⟨⟨0⟩, Option.some.inj (ho.symm.trans howner)⟩
  declared i hi := by
    have hctor := method_chainTable k hi
    exact
      { sym := sym_chainClass k xs i (k - i)
        code := constructor_mem_chainClass k xs i (k - i)
        named := rfl
        isConstructor := congrArg MethodInfo.isConstructor hctor
        notNative := (congrArg MethodInfo.isNative hctor).trans
          (show (Flags.of [.publicAccess]).has .native = false by decide)
        notFinal := (congrArg MethodInfo.isFinal hctor).trans
          (show (Flags.of [.publicAccess]).has .final = false by decide)
        body := rfl
        single := rfl }
  inner i hi := by
    obtain ⟨d, hd⟩ : ∃ d, k - i = d + 1 := ⟨k - i - 1, by omega⟩
    have hnext : k - (i + 1) = d := by omega
    have hcls := cls_chainTable k hi
    refine ⟨?_, congrArg ClassInfo.owner hcls, congrArg ClassInfo.hasOuter hcls,
      ⟨10 * i + 5, 10 * i + 5⟩, if_pos hi⟩
    change Member.nested (chainClass k xs (i + 1) (k - (i + 1))) ∈
      (chainClass k xs i (k - i)).members
    rw [hd, hnext]
    exact List.mem_cons_of_mem _ List.mem_cons_self

/-- There are no other classes in the unit, no other methods and no unknown nodes. -/
structure ChainOnly : Prop where
  known : (Node.file (chainUnit k xs)).nodes.all Node.isKnown = true
  classes : (Node.file (chainUnit k xs)).classes =
    (List.range (k + 1)).map fun i => chainClass k xs i (k - i)
  methods : ∀ x ∈ xs, ∀ md, x ≠ .method md

section Only

variable {k : Nat} {xs : List Member} (h : ChainOnly k xs)

include h

theorem ChainOnly.methods_chainClass (i d : Nat) :
    (chainClass k xs i d).methods = [chainConstructor k i] := by
  have hxs : ∀ x ∈ if i = 0 then [] else xs, ∀ md, x ≠ .method md := by
    intro x hx
    split at hx
    · cases hx
    · exact h.methods x hx
  cases d <;>
  · simp only [chainClass, ClassDecl.methods, List.filterMap_cons]
    refine congrArg _ (List.filterMap_eq_nil_iff.mpr fun x hx => ?_)
    cases x with
    | method md => exact absurd rfl (hxs _ hx md)
    | field | initializer | nested | unknown => rfl

theorem ChainOnly.methodSyms_eq : Catalog.methodSyms (.file (chainUnit k xs)) =
    (List.range (k + 1)).map fun i => ⟨i + 1⟩ := by
  simp only [Catalog.methodSyms, h.classes, List.flatMap_map, h.methods_chainClass]
  simp [chainConstructor, List.map_eq_flatMap]

theorem ChainOnly.regular : (chainUnit k xs).Regular := by
  have hmem {d : ClassDecl} (hd : d ∈ (Node.file (chainUnit k xs)).classes) :
      ∃ i, d = chainClass k xs i (k - i) := by
    rw [h.classes] at hd
    obtain ⟨i, -, hi⟩ := List.mem_map.mp hd
    exact ⟨i, hi.symm⟩
  constructor
  · exact List.all_eq_true.mp h.known
  · rw [h.classes, List.map_map]
    refine List.nodup_range.map fun i j hij => ?_
    have hid (i : Nat) : (chainClass k xs i (k - i)).id = ⟨2 * i⟩ := by
      cases k - i <;> rfl
    simp only [Function.comp, hid, DeclId.mk.injEq] at hij
    omega
  · rintro d hd
    obtain ⟨i, rfl⟩ := hmem hd
    simp [sym_chainClass]
  · rw [h.classes, List.map_map]
    refine List.nodup_range.map fun i j hij => ?_
    simpa [sym_chainClass] using hij
  · rw [h.methodSyms_eq]
    exact List.nodup_range.map fun i j hij => by simpa using hij
  · rintro d hd md hmd v hv
    obtain ⟨i, rfl⟩ := hmem hd
    rw [h.methods_chainClass, List.mem_singleton] at hmd
    subst hmd
    cases hv

theorem ChainOnly.passesOuter : PassesOuter (chainTable k) (chainUnit k xs)
    (chainLayer k xs 0).cls (10 * k + 6) (chainLayer k xs k).expr := by
  have hregister : (chainTable k).method ⟨0⟩ =
      { name := "register", owner := some ⟨1⟩, flags := .of [.publicAccess, .static] } := by
    simp only [chainTable, SymbolTable.method, Array.getD_eq_getD_getElem?, Array.getElem?_append]
    rfl
  have hexpr : (chainLayer k xs k).expr = registerOutermost (10 * k + 6) :=
    if_neg (Nat.lt_irrefl k)
  have hname : isReceiverName "register" = false := by decide
  rw [hexpr]
  change PassesOuter _ _ _ (Span.pos ⟨10 * k + 6, 10 * k + 6⟩) _
  refine .call (.member hname) ?_ ?_ ?_ ?_ (fun d md hd => ?_) ?_
  · rw [hregister]
    decide
  · rw [hregister]
  · rw [hregister]
    decide
  · rw [hregister]
    decide
  · have hmem : ⟨0⟩ ∈ Catalog.methodSyms (.file (chainUnit k xs)) :=
      List.mem_flatMap.mpr ⟨d, Catalog.below_file_iff.mp hd.inside,
        List.mem_filterMap.mpr ⟨md, hd.declared, hd.named⟩⟩
    simp [h.methodSyms_eq] at hmem
  · rfl

end Only

end Chain

/-- The catalog of the unit. -/
def chainCatalog (k : Nat) (xs : List Member) : Catalog where
  entries := (List.range (k + 1)).map fun i =>
    (⟨i + 1⟩, ⟨chainClass k xs i (k - i), chainConstructor k i, i == 0, true⟩)
  nonPublic := (List.range k).reverse.map fun i => ⟨i + 3⟩
  analyzable := [chainClass k xs 0 k]

theorem mem_analyzableConstructors_chain (k : Nat) (xs : List Member) :
    chainConstructor k 0 ∈ analyzableConstructors
      { table := chainTable k, catalog := chainCatalog k xs } (chainClass k xs 0 k) := by
  have hctor : (chainConstructor k 0).isConstructor (chainTable k) = true :=
    congrArg MethodInfo.isConstructor (method_chainTable k (Nat.zero_le k))
  refine List.mem_filter.mpr
    ⟨List.mem_filter.mpr ⟨constructor_mem_chainClass k xs 0 k, hctor⟩, ?_⟩
  simp [chainConstructor, Catalog.lookup?, chainCatalog, List.range_succ_eq_map]

/-- The initializer `{ R.register(this); }`. -/
def registerThis : Member :=
  .initializer ⟨default, false, [some (.exprStmt default (some (.call default
    (some (.select default (some (.typeName default (some ⟨1⟩))) "register" (some (.method ⟨0⟩))))
    [some (.ident default "this" none)])))]⟩

/-- Whether a run comes to its end without a leak and with one reference. -/
def endsWithOnly (r : Ref) : EStateM.Result Stop State Unit → Bool
  | .ok _ s => s.refs.toList == [r] && s.pending == none
  | .error .. => false

theorem settles_of_endsWithOnly {env : Env} {n : Nat} {d : ClassDecl} {r : Ref} {s : State}
    (hr : r.kind = .this)
    (h : endsWithOnly r (runInitializers env (Interp.exec env n) d s) = true) :
    Settles env d r s := by
  cases hrun : runInitializers env (Interp.exec env n) d s with
  | error e s' =>
    rw [hrun] at h
    cases h
  | ok u s₁ =>
    simp only [hrun, endsWithOnly, Bool.and_eq_true, beq_iff_eq] at h
    have hrefs : s₁.refs = .ofList [r] := RefSet.ext h.1
    exact ⟨n, s₁, hrun, hrefs ▸ RefSet.hasReceiver_ofList hr, h.2⟩

/-- With one inner class the leak is found.  Its initializer hands out the instance of the inner
class, but this does not lead to the one that is under construction. -/
theorem constructor_passOutermost_one : ∃ n, ∀ fuel, n ≤ fuel →
    let o := constructor { table := chainTable 1, catalog := chainCatalog 1 [registerThis] } fuel
      (chainClass 1 [registerThis] 0 1) (chainConstructor 1 0)
    o.stop = none ∧ o.trails = [[16, 5]] := by
  have honly : ChainOnly 1 [registerThis] := ⟨by cbv, by cbv, by simp [registerThis]⟩
  have hbuild : Catalog.build (chainTable 1) (chainUnit 1 [registerThis]) { enabled := true } =
      .ok (chainCatalog 1 [registerThis]) := by cbv
  refine constructor_passOutermost (chainTable 1) (chainUnit 1 [registerThis]) { enabled := true }
    (chainCatalog 1 [registerThis]) false .byIdentity 1 (chainLayer 1 [registerThis]) 16
    honly.regular hbuild (Nat.le_refl 1) (nested_chain 1 [registerThis]) honly.passesOuter ?_
  intro i hi s hs hsuppressed
  obtain rfl : i = 0 := by omega
  cases hs
  exact settles_of_endsWithOnly (n := 8) rfl (by decide +kernel)

/-- In the unit of the classes `C0`, ..., `Ck`, the innermost of which passes `C0.this` on, the
session over the constructor of `C0` has these trails. -/
structure ChainTrails (k : Nat) (xs : List Member) (trails : List Trail) : Prop where
  regular : (chainUnit k xs).Regular
  built : Catalog.build (chainTable k) (chainUnit k xs) { enabled := true } =
    .ok (chainCatalog k xs)
  nested : Nested (chainTable k) (chainUnit k xs) k (chainLayer k xs)
  passes : PassesOuter (chainTable k) (chainUnit k xs) (chainLayer k xs 0).cls (10 * k + 6)
    (chainLayer k xs k).expr
  session : chainConstructor k 0 ∈ analyzableConstructors
    { table := chainTable k, catalog := chainCatalog k xs } (chainClass k xs 0 k)
  stop : (constructor { table := chainTable k, catalog := chainCatalog k xs } 20
    (chainClass k xs 0 k) (chainConstructor k 0)).stop = none
  trails : (constructor { table := chainTable k, catalog := chainCatalog k xs } 20
    (chainClass k xs 0 k) (chainConstructor k 0)).trails = trails

/-- With two inner classes the leak is missed, and with one it is missed if an initializer of the
inner class leaks first. -/
theorem passOutermost_missed :
    ChainTrails 2 [] [] ∧
    ChainTrails 1 [.initializer ⟨default, false,
      [some (.exprStmt default (some (registerOutermost 30)))]⟩] [[30, 5]] := by
  constructor
  · have honly : ChainOnly 2 [] := ⟨by cbv, by cbv, nofun⟩
    exact ⟨honly.regular, by cbv, nested_chain 2 [], honly.passesOuter,
      mem_analyzableConstructors_chain 2 [], by decide +kernel, by decide +kernel⟩
  · have honly : ChainOnly 1 [.initializer ⟨default, false,
        [some (.exprStmt default (some (registerOutermost 30)))]⟩] := ⟨by cbv, by cbv, by simp⟩
    exact ⟨honly.regular, by cbv, nested_chain 1 _, honly.passesOuter,
      mem_analyzableConstructors_chain 1 _, by decide +kernel, by decide +kernel⟩

end Analysis

end EarlyEscape
