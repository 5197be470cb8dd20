import HostScript.Eval.Statement

/-!
# Evaluation

The evaluation of expressions and statements, with an allowance that bounds how deep it nests and
how often a loop goes round. An evaluation that ends before the allowance is used up does not depend
on it.
-/

set_option autoImplicit false

namespace HostScript

mutual

/-- The value of an expression. -/
def evalExpr : Nat → Expr → Exec Value
  | 0, _ => throw (.stopped .exhausted)
  | allowance + 1, e =>
    Evaluator.exprStep ⟨evalExpr allowance, evalStmt allowance⟩ e

/-- How a statement ends. -/
def evalStmt : Nat → Stmt → Exec Flow
  | 0, _ => throw (.stopped .exhausted)
  | allowance + 1, s =>
    Evaluator.stmtStep ⟨evalExpr allowance, evalStmt allowance⟩ allowance s

end

/-- Evaluation with an allowance. -/
def evaluator (allowance : Nat) : Evaluator := ⟨evalExpr allowance, evalStmt allowance⟩

/-- An allowance that no evaluation uses up in practice. -/
def ample : Nat := 1000000000000

end HostScript
