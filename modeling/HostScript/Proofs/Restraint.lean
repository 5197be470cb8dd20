import HostScript.Eval.Run

/-!
# Evaluation under restraint

An evaluation that refuses some expressions and statements with a failure, and that has the texts of the
commands `eval` and `source` run by another evaluator. To say that an evaluation comes upon none of the
refused constructs is to say that refusing them makes no difference to it.
-/

set_option autoImplicit false

namespace HostScript

open Exec

/-- What is refused, and how. -/
structure Restraint where
  expr : Expr → Bool := fun _ => false
  stmt : Stmt → Bool := fun _ => false
  failure : Failure

namespace Evaluator

/-- An evaluator whose allowance is used up. -/
def spent : Evaluator := ⟨fun _ => throw (.stopped .exhausted), fun _ => throw (.stopped .exhausted)⟩

/-- An evaluator that refuses everything. -/
def refusing (f : Failure) : Evaluator := ⟨fun _ => throw f, fun _ => throw f⟩

/-- Calls a name without a receiver; the commands run their texts with another evaluator. -/
def invokeWith (ev texts : Evaluator) (name : String) (args : List Value) : Exec Value := do
  let here ← onFailure scope (·.dropAll args)
  match ← onFailure (callee? here name args) (·.dropAll args) with
  | some (.scripted method) => ev.invokeScripted method args
  | some (.host receiver method) =>
    holdingAll args (holding receiver (ev.callConverted method (some receiver) args))
  | some (.command c) => holdingAll args (texts.runCommand c args)
  | some (.generic method) => ev.invokeGeneric method name args
  | none =>
    holdingAll args do
      fault (.noMethodInNamespace (callText name args) (← frameName here))

/-- The value of an expression, with another evaluator for texts. -/
def exprFormWith (ev texts : Evaluator) (e : Expr) : Exec Value :=
  match e with
  | .call _ name es => do ev.invokeWith texts name (← ev.args es)
  | e => ev.exprForm e

theorem exprFormWith_self (ev : Evaluator) (e : Expr) : ev.exprFormWith ev e = ev.exprForm e := by
  cases e <;> rfl

/-- One step of evaluation under restraint. -/
def restrained (R : Restraint) (ev texts : Evaluator) (rounds : Nat) : Evaluator where
  expr e :=
    if R.expr e then throw R.failure
    else locating e.span (fun _ => e.describe) (ev.exprFormWith texts e)
  stmt s := if R.stmt s then throw R.failure else ev.stmtStep rounds s

end Evaluator

theorem evaluator_succ (n : Nat) (f : Failure) :
    evaluator (n + 1) = (evaluator n).restrained { failure := f } (evaluator n) n := by
  unfold Evaluator.restrained
  simp only [Evaluator.exprFormWith_self]
  rfl

end HostScript
