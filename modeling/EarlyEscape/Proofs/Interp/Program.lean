import EarlyEscape.Interp.Exec
import EarlyEscape.Proofs.Syntax.Identity

/-!
# How the interpreter is put together

Every handler of the interpreter is put together from a few basic steps: results are pushed, taken,
dropped and stored, leaks are recorded, scopes, calls and deferred code are run, and pieces
of the program are handed to the interpreter itself.  `Program` says so, and says what the handler
may do while it runs.  A property of the interpreter is then proved with one case for each basic
step, whatever the number of sorts of expressions and statements.

A handler is given as a function of the `Mode` it runs in.  Two runs of the same handler in two
modes, with other settings or with another bound on the steps, are thereby two values of one
function.

## Main definitions

* `Interp.Mode` : the settings and the interpreter that a handler runs with.
* `Interp.World` : the nodes, types and indirections that can come up.
* `Interp.Callee` : the code that a simulated call runs.
* `Interp.Effects` : what a handler may run and what it may do to references.
* `Interp.Code` : the code that can come up.
* `Interp.World.OneCode` : a declaration has one code.
* `Interp.Basic` : what a step on references does.
* `Interp.Program` : a handler is put together from basic steps.
-/

namespace EarlyEscape.Interp

/-- The node of a piece of a program. -/
def Task.node : Task → Node
  | expr e => .expr e
  | drop e => .expr e
  | stmt s => .stmt s
  | loop s => .stmt s

/-- The settings of a run, the interpreter for the pieces inside, and the bound on the passes of a
loop. -/
structure Mode where
  checked : Bool
  guard : Guard
  ties : TieOrder
  walk : Walk
  passes : Nat

/-- A program with its symbols, and bounds on what can come up when it is interpreted. -/
structure World where
  table : SymbolTable
  catalog : Catalog
  /-- The nodes that can be interpreted. -/
  nodes : Node → Prop
  /-- The types that references can have. -/
  types : Option ClassId → Prop
  /-- The sets of indirections that references can have. -/
  inds : Indirections → Prop
  /-- The variables that can hold references. -/
  vars : VarId → Prop

namespace World

variable (w : World)

/-- The surroundings of a run in a mode. -/
def env (m : Mode) : Env := ⟨w.table, w.catalog, m.checked, m.guard, m.ties⟩

@[simp] theorem env_table (m : Mode) : (w.env m).table = w.table := rfl

@[simp] theorem env_catalog (m : Mode) : (w.env m).catalog = w.catalog := rfl

/-- The surroundings of a run with the usual settings. -/
def base : Env := { table := w.table, catalog := w.catalog }

/-- The reference stays inside the bounds. -/
structure Tracks (r : Ref) : Prop where
  type : w.types r.type
  ind : w.inds r.ind
  var : ∀ v, r.role = .var v → w.vars v

/-- The listing order tells all types and all variables of the world apart. -/
structure Untied : Prop where
  types : ∀ c c', w.types c → w.types c' →
    w.table.classText c = w.table.classText c' → c = c'
  vars : ∀ v v', w.vars v → w.vars v' → (w.table.var v).pos = (w.table.var v').pos → v = v'

end World

/-! ### Code of calls -/

/-- The code of a simulated call. -/
inductive Callee where
  /-- The body of a method or constructor of the catalog. -/
  | method (e : Catalog.Entry) (body : Block)
  /-- The initializers of an anonymous class. -/
  | initializers (d : ClassDecl) (cls : Option ClassId)
  /-- The body of a method of an anonymous class. -/
  | later (d : MethodDecl) (body : Block) (cls : Option ClassId)

namespace Callee

/-- The declaration that a call is entered under. -/
def decl : Callee → DeclId
  | method e _ => e.decl.id
  | initializers d _ => d.id
  | later d _ _ => d.id

/-- The class that the code belongs to. -/
def cls : Callee → Option ClassId
  | method e _ => e.cls.sym
  | initializers _ cls => cls
  | later _ _ cls => cls

/-- What a call runs. -/
def run (env : Env) (walk : Walk) : Callee → Interp Unit
  | method e body => runMethod env walk e body
  | initializers d _ => runInitializers env walk d
  | later _ body _ => runBlock walk (some body)

/-- The node lies in one of the initializers of the class. -/
def InInitializers (t : SymbolTable) (d : ClassDecl) (n : Node) : Prop :=
  ∃ x ∈ d.initializers t, (Node.ofMember x).Within n

/-- The node lies in the code: in the body or, for a constructor that does not start with a call of
another one, in the initializers of its class. -/
def Holds (t : SymbolTable) : Callee → Node → Prop
  | method e body, n => (Node.ofBlock body).Below n ∨
      e.decl.isConstructor t = true ∧ isThisCall body.stmts.head?.join = false ∧
        InInitializers t e.cls n
  | initializers d _, n => InInitializers t d n
  | later _ body _, n => (Node.ofBlock body).Below n

end Callee

/-! ### Effects -/

/-- What a piece of a program may run and do. -/
structure Effects where
  /-- The pieces that run at once. -/
  now : Task → Prop
  /-- The nodes that run now or in deferred code. -/
  later : Node → Prop
  /-- The places that may get values. -/
  gives : Ref.Role → Prop
  /-- The sorts of places that values may be taken from. -/
  takes : Ref.Kind → Prop
  /-- The variables whose values may be read. -/
  reads : VarId → Prop
  /-- The places that deferred code may hold values in. -/
  defers : Ref.Role → Prop
  /-- The positions that leaks may be recorded at. -/
  leaks : Option Pos → Prop
  /-- The code that may be entered from positions. -/
  enters : Option Pos → Callee → Prop
  /-- Whether the piece is of an unknown sort, which is an error of the analysis. -/
  fails : Prop

/-- The piece of a program makes calls of its own. -/
def Task.MakesCalls : Task → Prop
  | expr (.call ..) | drop (.call ..) => True
  | expr (.new ..) | drop (.new ..) => True
  | expr (.memberRef ..) | drop (.memberRef ..) => True
  | loop (.forEach ..) => True
  | _ => False

/-- The piece of a program is a function. -/
def Task.IsFunction : Task → Prop
  | expr (.lambda ..) | drop (.lambda ..) => True
  | _ => False

/-- The piece of a program may record a leak of its own at the position. -/
def Task.LeaksAt (t : Task) (pos : Option Pos) : Prop :=
  t.MakesCalls ∨ ∃ span x, t = .stmt (.throwStmt span x) ∧ pos = some span.pos

namespace Effects

/-- The effects of a piece of a program: the pieces inside run, and the passes of a loop run after
its initialization. -/
def ofTask (t : Task) : Effects :=
  ⟨fun t' => t.node.RunsBelow t'.node ∨ ∃ s, t = .stmt s ∧ t' = .loop s, t.node.Below,
    t.node.Gives, t.node.Takes, t.node.Reads, fun _ => t.IsFunction, t.LeaksAt,
    fun _ _ => t.MakesCalls, t.node.isKnown = false⟩

/-- An expression has the same effects if its value is dropped. -/
theorem ofTask_drop (e : Expr) : ofTask (.drop e) = ofTask (.expr e) := by
  have hleaks : (Task.drop e).LeaksAt = (Task.expr e).LeaksAt := by
    funext pos
    cases e <;> simp [Task.LeaksAt, Task.MakesCalls]
  cases e <;> simp [ofTask, hleaks, Task.node, Task.MakesCalls, Task.IsFunction]

/-- The effects of deferred code. -/
def deferred (E : Effects) : Effects :=
  { E with
    now := fun t => E.later t.node, gives := E.defers, takes := fun k => ∃ n, E.later n ∧ n.Takes k
    reads := fun v => ∃ n, E.later n ∧ n.Reads v }

/-- The effects of code that runs given nodes, whatever these do. -/
def inside (nodes : Node → Prop) : Effects :=
  ⟨fun t => nodes t.node, nodes, fun _ => True, fun _ => True, fun _ => True, fun _ => True,
    fun _ => False, fun _ _ => False, False⟩

/-- The effects of code that runs nodes of the world. -/
def anything (w : World) : Effects := inside w.nodes

/-- The effects cover a piece that runs at once. -/
def Covers (E : Effects) (t : Task) : Prop :=
  E.now t ∧ (∀ role, t.node.Gives role → E.gives role) ∧ (∀ k, t.node.Takes k → E.takes k) ∧
    ∀ v, t.node.Reads v → E.reads v

theorem covers_ofTask {t c : Task} (h : t.node.RunsBelow c.node) : (ofTask t).Covers c :=
  ⟨.inl h, fun _ => h.gives, fun _ => h.takes, fun _ => h.reads⟩

theorem covers_loop {s : Stmt} : (ofTask (.stmt s)).Covers (.loop s) :=
  ⟨.inr ⟨s, rfl, rfl⟩, fun _ => id, fun _ => id, fun _ => id⟩

theorem covers_deferred {E : Effects} {c : Task} (h : E.later c.node) (hd : ∀ role, E.defers role) :
    E.deferred.Covers c :=
  ⟨h, fun role _ => hd role, fun _ hk => ⟨_, h, hk⟩, fun _ hv => ⟨_, h, hv⟩⟩

theorem covers_inside {nodes : Node → Prop} {c : Task} (h : nodes c.node) :
    (inside nodes).Covers c :=
  ⟨h, fun _ _ => trivial, fun _ _ => trivial, fun _ _ => trivial⟩

theorem covers_anything {w : World} {c : Task} (h : w.nodes c.node) : (anything w).Covers c :=
  covers_inside h

/-- Code with the effects takes nothing from the places of the references, which hold returned and
yielded values and the values of variables that the code does not read. -/
def PassesOver (E : Effects) (extra : RefSet) : Prop :=
  ∀ r ∈ extra, (r.kind = .returned ∨ r.kind = .yielded ∨ ∃ v, r.role = .var v ∧ ¬E.reads v) ∧
    ¬E.takes r.kind

theorem PassesOver.kind_ne_expr {E : Effects} {extra : RefSet} (h : E.PassesOver extra) :
    ∀ r ∈ extra, r.kind ≠ .expr := by
  intro r hr hexpr
  rcases (h r hr).1 with hk | hk | ⟨v, hv, -⟩
  · cases hk.symm.trans hexpr
  · cases hk.symm.trans hexpr
  · obtain ⟨k, hk⟩ := Ref.kind_eq_expr_iff.mp hexpr
    cases hk.symm.trans hv

/-- All that may run belongs to the world. -/
structure Within (E : Effects) (w : World) : Prop where
  now : ∀ t, E.now t → w.nodes t.node
  later : ∀ n, E.later n → w.nodes n

theorem Within.deferred {E : Effects} {w : World} (h : E.Within w) : E.deferred.Within w :=
  ⟨fun t ht => h.later t.node ht, h.later⟩

theorem within_inside {w : World} {nodes : Node → Prop} (h : ∀ n, nodes n → w.nodes n) :
    (inside nodes).Within w :=
  ⟨fun t => h t.node, h⟩

theorem within_anything {w : World} : (anything w).Within w := within_inside fun _ => id

end Effects

/-! ### Phases -/

/-- Whether the current scope may hold the result of an expression. -/
inductive Phase where
  /-- There is no result. -/
  | idle
  /-- There may be one. -/
  | busy

/-- The results among the references are those that the phase allows at a scope depth. -/
def Phase.Holds : Phase → Int → RefSet → Prop
  | idle, depth, refs => ∀ r ∈ refs, ∀ k, r.role = .expr k → k < depth
  | busy, depth, refs => ∀ r ∈ refs, ∀ k, r.role = .expr k → k ≤ depth

/-- The phase that a piece of a program leads to: an expression leaves a result, unless that is
dropped, and a statement does not. -/
def Task.result : Task → Phase
  | expr _ => .busy
  | drop _ => .idle
  | stmt _ => .idle
  | loop _ => .idle

/-- The reference can be handed to a simulated call: it is held by a receiver or a variable. -/
def IsSeed (r : Ref) : Prop := r.kind = .this ∨ r.kind = .var

/-! ### Calls -/

/-- The code can be that of a simulated call: a method of the catalog, or the initializers or a
method of an anonymous class. -/
inductive Code (w : World) : Callee → Prop
  | method {s : MethodId} {e : Catalog.Entry} {body : Block}
      (he : (s, e) ∈ w.catalog.entries) (hb : e.decl.body = some body) : Code w (.method e body)
  | initializers {span : Span} {outer : Option Expr} {cls : Option ClassId} {ctor : Option MethodId}
      {args : List (Option Expr)} {d : ClassDecl}
      (hn : w.nodes (.expr (.new span outer cls ctor args (some d)))) :
      Code w (.initializers d (d.sym.or cls))
  | later {span : Span} {outer : Option Expr} {cls : Option ClassId}
      {ctor : Option MethodId} {args : List (Option Expr)} {d : ClassDecl} {md : MethodDecl}
      {body : Block} (hn : w.nodes (.expr (.new span outer cls ctor args (some d))))
      (hm : md ∈ d.methods) (hb : md.body = some body)
      (hctor : md.isConstructor w.table = false) : Code w (.later md body (d.sym.or cls))

/-- What a call of the code runs, in every mode. -/
def Callee.program (w : World) (c : Callee) : Mode → Interp Unit := fun m => c.run (w.env m) m.walk

/-- The code of a declaration, and the class it belongs to, are determined by the identity of the
declaration. -/
def World.OneCode (w : World) : Prop :=
  ∀ c c', Code w c → Code w c' → c.decl = c'.decl → c.cls = c'.cls ∧ c.program w = c'.program w

/-! ### Steps on references -/

/-- A step that reads and changes the references of the current scope and nothing else.  A step that
lists them needs an order. -/
def onRefs {α : Type} (env : Env) (ordered : Bool) (f : Int → RefSet → α × RefSet) : Interp α := do
  if ordered then requireOrder env
  modifyGet fun s => ((f s.depth s.refs).1, { s with refs := (f s.depth s.refs).2 })

/-- The step on references `f` has effects in `E`; from the phase `p` it leads to the phase `q` and
gives a value that satisfies `V`. -/
structure Basic (w : World) (E : Effects) (p : Phase) {α : Type} (f : Int → RefSet → α × RefSet)
    (V : α → Prop) (q : Phase) : Prop where
  value : ∀ d refs, (∀ r ∈ refs, w.Tracks r) → V (f d refs).1
  tracks : ∀ d refs, (∀ r ∈ refs, w.Tracks r) → ∀ r ∈ (f d refs).2, w.Tracks r
  exprs : ∀ d refs r k, r.role = .expr k → k ≠ d → (r ∈ (f d refs).2 ↔ r ∈ refs)
  kept : ∀ d refs, ∀ r ∈ refs, r.kind ≠ .expr → ¬E.takes r.kind → r ∈ (f d refs).2
  added : ∀ d refs, ∀ r ∈ (f d refs).2, r.kind ≠ .expr → r ∉ refs → E.gives r.role
  phase : ∀ d refs, p.Holds d refs → q.Holds d (f d refs).2
  /-- The step depends on the references as a set, and not on those that it passes over. -/
  alike : ∀ d refs refs' extra, E.PassesOver extra → (∀ r, r ∈ refs ↔ r ∈ refs' ∨ r ∈ extra) →
    (f d refs).1 = (f d refs').1 ∧ ∀ r, r ∈ (f d refs).2 ↔ r ∈ (f d refs').2 ∨ r ∈ extra

/-! ### Programs -/

/-- `Program w E p x V q` : the step `x` is put together from basic steps with effects in `E`; from
the phase `p` it leads to the phase `q` and gives a value that satisfies `V`. -/
inductive Program (w : World) :
    Effects → Phase → {α : Type} → (Mode → Interp α) → (α → Prop) → Phase → Prop
  | pure {E p} {α : Type} {V : α → Prop} {a : α} (ha : V a) : Program w E p (fun _ => pure a) V p
  | bind {E p q r} {α β : Type} {x : Mode → Interp α} {f : α → Mode → Interp β} {V : α → Prop}
      {U : β → Prop} (hx : Program w E p x V q) (hf : ∀ a, V a → Program w E q (f a) U r) :
      Program w E p (fun m => x m >>= fun a => f a m) U r
  | weaken {E p p' q q'} {α : Type} {x : Mode → Interp α} {V V' : α → Prop}
      (h : Program w E p x V q) (hp : p' = p ∨ p' = .idle) (hq : q' = q ∨ q' = .busy)
      (hV : ∀ a, V a → V' a) : Program w E p' x V' q'
  /-- A piece inside. -/
  | run {E} {t : Task} (h : E.Covers t) :
      Program w E .idle (fun m => m.walk t) (fun _ => True) t.result
  /-- An end of the interpretation that has nothing to do with left over results or with the bound
  on the steps: something is missing, or a node is unknown. -/
  | stop {E p q} {α : Type} {V : α → Prop} {e : Stop} (he : e ≠ .exhausted)
      (hs : ∀ pos r sort d, e ≠ .internal ⟨pos, .survivor r sort d⟩)
      (hk : e = .missing ∨ E.fails) :
      Program w E p (fun _ => (throw e : Interp α)) V q
  /-- A look at the class of the running code. -/
  | ask {E p q} {α : Type} {V : α → Prop} {f : Option ClassId → Mode → Interp α}
      (hf : ∀ c, Program w E p (f c) V q) :
      Program w E p (fun m => get >>= fun s => f s.methodClass m) V q
  /-- A step on references.  It depends on the order of tied references only if there are some. -/
  | basic {E p q} {α : Type} {V : α → Prop} {ordered : Bool}
      {f : TieOrder → Int → RefSet → α × RefSet} (h : ∀ ties, Basic w E p (f ties) V q)
      (hties : w.Untied → ∀ d refs, (∀ r ∈ refs, w.Tracks r) → ∀ ties ties',
        f ties d refs = f ties' d refs) :
      Program w E p (fun m => onRefs (w.env m) ordered (f m.ties)) V q
  /-- A leak, which takes a reference. -/
  | leakAt {E p} {pos : Option Pos} (hpos : E.leaks pos) (hr : ∃ r, w.Tracks r) :
      Program w E p (fun _ => leakAt pos) (fun _ => True) p
  /-- A scope whose result is dropped. -/
  | scope {E p q} {x : Mode → Interp Unit} (hx : Program w E .idle x (fun _ => True) q) :
      Program w E p (fun m => inScope dropResult (x m)) (fun _ => True) p
  /-- A scope whose result is handed on. -/
  | promote {E p q} {x : Mode → Interp Unit} (hx : Program w E .idle x (fun _ => True) q) :
      Program w E p (fun m => inScope (promoteResult (w.env m)) (x m)) (fun _ => True) .busy
  /-- A simulated call of a method. -/
  | call {E p q} {site : Option Pos} {s : MethodId} {e : Catalog.Entry} {body : Block}
      {seed : RefSet} (he : (s, e) ∈ w.catalog.entries) (hb : e.decl.body = some body)
      (hsite : E.enters site (.method e body))
      (hin : ∀ n, (Callee.method e body).Holds w.table n → w.nodes n)
      (hseed : ∀ r ∈ seed, w.Tracks r ∧ IsSeed r) (hne : seed.isEmpty = false)
      (hx : Program w (.inside ((Callee.method e body).Holds w.table)) .idle
        ((Callee.method e body).program w) (fun _ => True) q) :
      Program w E p (fun m => enter (w.env m) site e.decl.id e.cls.sym seed
        ((Callee.method e body).program w m)) (fun rs => ∀ r ∈ rs, w.Tracks r) p
  /-- A simulated call whose value is not used. -/
  | visit {E p q} {site : Option Pos} {c : Callee} {seed : RefSet} (hc : Code w c)
      (hsite : E.enters site c) (hin : ∀ n, c.Holds w.table n → w.nodes n)
      (hseed : ∀ r ∈ seed, w.Tracks r ∧ IsSeed r) (hne : seed.isEmpty = false)
      (hx : Program w (.inside (c.Holds w.table)) .idle (c.program w) (fun _ => True) q) :
      Program w E p (fun m => discard (enter (w.env m) site c.decl c.cls seed (c.program w m)))
        (fun _ => True) p
  /-- Code that runs at a later time. -/
  | deferred {E p q} {type : Option ClassId} {x : Mode → Interp Unit} (ht : w.types type)
      (hi : ∀ i, w.inds i → w.inds .indirect)
      (hx : Program w E.deferred p x (fun _ => True) q) :
      Program w E p (fun m => deferred (w.env m) type (x m)) (fun _ => True) .busy
  /-- The check at the end of a statement. -/
  | check {E} {s : Stmt} :
      Program w E .idle (fun m => checkLeftovers (w.env m) s) (fun _ => True) .idle

end EarlyEscape.Interp
