import EarlyEscape.Interp.Stmt

/-!
# The interpreter

`Interp.exec` interprets expressions and statements with a bound on the nesting of steps and on the
number of passes of a loop.  An interpretation that reaches the bound ends with `Stop.exhausted`, so
that it is never mistaken for one that is done.

## Main definitions

* `Interp.step` : one piece of a program, its parts left to a parameter.
* `Interp.exec` : the interpreter.
-/

namespace EarlyEscape.Interp

/-- The effect of one piece of a program, its parts left to `walk`.  A loop takes at most `passes`
passes. -/
def step (env : Env) (walk : Walk) (passes : Nat) : Task → Interp Unit
  | .expr e => stepExpr env walk e
  | .drop e => do
    stepExpr env walk e
    dropResult
  | .stmt s => stepStmt env walk s
  | .loop s => looped passes (loopPass env walk s)

/-- Interprets a piece of a program with a bound on the nesting of steps. -/
def exec (env : Env) : Nat → Task → Interp Unit
  | 0, _ => throw .exhausted
  | n + 1, task => step env (exec env n) n task

/-- An expression whose value is dropped is interpreted like any other one. -/
theorem exec_drop (env : Env) (n : Nat) (e : Expr) :
    exec env n (.drop e) = exec env n (.expr e) >>= fun _ => dropResult := by
  cases n <;> rfl

end EarlyEscape.Interp
