import HostScript.Proofs.WovenEvaluation

/-!
# What a host does with an interpreter

A host evaluates texts and files in namespaces, reads, writes and removes variables, and feeds the
units of a line loop. After every such call the global frame is alone on the stack again, and none of the
checks of the stack on the way has anything to report (`call_stack_balanced`).
-/

set_option autoImplicit false

namespace HostScript

/-- A call of the host. -/
inductive HostCall where
  | eval (text : String)
  | evalIn (scope : ScopeId) (text : String)
  | source (scope : ScopeId) (path : String)
  | write (path : String) (value : Value)
  | read (path : String)
  | remove (path : String)
  /-- A unit that the line loop has read. -/
  | unit (s : Stmt)

namespace Exec

variable {α : Type} {x : Exec α} {m : Machine}

/-- The machine that a computation leaves, however it ends. -/
def after (x : Exec α) (m : Machine) : Machine :=
  match x m with
  | .ok _ m' => m'
  | .error _ m' => m'

/-- The failure that a computation ends with. -/
def failure? (x : Exec α) (m : Machine) : Option Failure :=
  match x m with
  | .ok _ _ => none
  | .error f _ => some f

theorem EndsBalanced.after (h : EndsBalanced m (x m)) : m.Alike (x.after m) := by
  unfold Exec.after
  cases hr : x m with
  | ok a m' =>
    rw [hr] at h
    exact h
  | error f m' =>
    rw [hr] at h
    exact h.1

/-- A run on another stack is balanced once the stack is put back. -/
theorem EndsBalanced.offStack {S : List ScopeId} : ∀ {r : Exec.Result α},
    EndsBalanced (m.onto S) r → EndsBalanced m (mapEnd (·.onto m.stack) r)
  | .ok _ _, h => Machine.Alike.offStack h
  | .error _ _, h => ⟨h.1.offStack, h.2⟩

theorem EndsBalanced.failure (h : EndsBalanced m (x m)) {f : Failure} (hf : x.failure? m = some f) :
    f.InStep := by
  unfold Exec.failure? at hf
  cases hr : x m with
  | ok a m' => simp [hr] at hf
  | error e m' =>
    rw [hr] at h
    simp only [hr, Option.some.injEq] at hf
    exact hf ▸ h.2

theorem balanced_parsePath (text : String) : Balanced (parsePath text) := by
  unfold parsePath
  split
  · exact balanced_pure _
  · exact balanced_throw trivial

/-- Once a balanced computation that started on the global frame ends, there is nothing to
resynchronise. -/
theorem afterwards_resync (hx : Balanced x) (hm : m.stack = [m.global]) :
    afterwards x Machine.resync m = x m := by
  -- a machine that still is on the global frame is not changed
  have hsync : ∀ m', m.Alike m' → m'.resync = m' := by
    intro m' h
    unfold Machine.resync
    rw [if_pos]
    rw [h.stack, h.global, hm]
  have h := hx m
  unfold afterwards
  cases hr : x m with
  | ok a m' =>
    rw [hr] at h
    simp only [hsync m' h]
  | error f m' =>
    rw [hr] at h
    simp only [hsync m' h.1]

theorem EndsBalanced.resync {β : Type} {f : α → Exec β} (hx : Balanced x)
    (hm : m.stack = [m.global]) (h : EndsBalanced m ((x >>= f) m)) :
    EndsBalanced m ((afterwards x Machine.resync >>= f) m) := by
  show EndsBalanced m (EStateM.bind (afterwards x Machine.resync) f m)
  unfold EStateM.bind
  rw [afterwards_resync hx hm]
  exact h

end Exec

namespace Evaluator

open Exec

variable {ev : Evaluator} (hev : ev.Balanced)

include hev

/-- A frame that is put on the stack for a text is the one that is taken off. -/
theorem balanced_evalLabelled (text : String) (scope : ScopeId) (label : Option String) :
    (ev.evalLabelled text scope label).Balanced := by
  intro m
  have h := balanced_runText hev text label (m.onto (if m.stack.head? != some scope then scope :: m.stack else m.stack))
  rw [evalLabelled_eq rfl h.keepsStack]
  exact h.offStack

theorem balanced_setPath (path : String) (value : Value) : (ev.setPath path value).Balanced :=
  ((balanced_parsePath path).unlessFailed value).bind fun e =>
    ((balanced_reference hev e).unlessFailed value).bind fun r => Balanced.afterwards
      ((balanced_assign hev r value).bind fun v => balanced_drop v) (Machine.ebbing_dropReference r).alike

theorem balanced_getPath (path : String) : (ev.getPath path).Balanced := by
  refine (balanced_parsePath path).bind fun e => (hev.expr e).bind fun v => ?_
  split
  · exact balanced_pure none
  · exact balanced_pure _

theorem balanced_unsetPath (path : String) : (ev.unsetPath path).Balanced :=
  (balanced_parsePath path).bind fun e => (balanced_reference hev e).bind fun r =>
    balanced_unsetReference r _

omit hev in
theorem balanced_present (v : Value) (shown : Bool) : (present v shown).Balanced := by
  refine Balanced.afterwards ?_ fun m => .drop m v
  split
  · exact (balanced_textOf v none).bind fun line => balanced_modify fun m => .ofConsole m _
  · exact balanced_pure _

/-- The value of a unit is shown and dropped. -/
theorem balanced_runTopUnit (unit : Stmt) {m : Machine} (hm : m.stack = [m.global]) :
    EndsBalanced m (ev.runTopUnit unit m) := by
  -- the line loop looks at the stack between the unit and what it shows
  refine EndsBalanced.resync (hev.stmt unit) hm (Balanced.bind (hev.stmt unit) (fun flow => ?_) m)
  split
  · exact .get fun m => balanced_present _ _
  · exact balanced_throw ((Failure.inStep_ofFault _).locate _ _)

end Evaluator

namespace HostCall

open Exec

/-- Carries out a call; the value is what the host is handed. -/
def exec (allowance : Nat) : HostCall → Exec (Option Value)
  | .eval text => do return some (← (evaluator allowance).eval text (← get).global)
  | .evalIn scope text => do return some (← (evaluator allowance).eval text scope)
  | .source scope path => do return some (← (evaluator allowance).runFile path scope)
  | .write path value => do
    (evaluator allowance).setPath path value
    return none
  | .read path => (evaluator allowance).getPath path
  | .remove path => do
    (evaluator allowance).unsetPath path
    return none
  | .unit s => do
    (evaluator allowance).runTopUnit s
    return none

/-- The machine after a row of calls. -/
def run (allowance : Nat) (m : Machine) (calls : List HostCall) : Machine :=
  calls.foldl (fun m call => (call.exec allowance).after m) m

/-- Each call is balanced when it starts on the global frame. -/
theorem balanced_exec (allowance : Nat) (call : HostCall) {m : Machine}
    (hm : m.stack = [m.global]) : EndsBalanced m (call.exec allowance m) := by
  have hev := balanced_evaluator allowance
  cases call with
  | eval text =>
    exact Balanced.get (fun g => (Evaluator.balanced_evalLabelled hev _ g.global none).bind
      fun _ => balanced_pure _) m
  | evalIn scope text =>
    exact (Evaluator.balanced_evalLabelled hev _ scope none).bind (fun _ => balanced_pure _) m
  | source scope path =>
    exact (Evaluator.balanced_runFile hev path scope).bind (fun _ => balanced_pure _) m
  | write path value =>
    exact (Evaluator.balanced_setPath hev path value).bind (fun _ => balanced_pure _) m
  | read path => exact Evaluator.balanced_getPath hev path m
  | remove path => exact (Evaluator.balanced_unsetPath hev path).bind (fun _ => balanced_pure _) m
  | unit s =>
    have h := Evaluator.balanced_runTopUnit hev s hm
    exact bind_ends h (fun _ _ h => h) fun _ _ h => h

/-- A row of calls ends as it began, on the global frame. -/
theorem run_alike (allowance : Nat) (calls : List HostCall) : ∀ m : Machine,
    m.stack = [m.global] → m.Alike (run allowance m calls) := by
  induction calls with
  | nil => exact fun m _ => .refl m
  | cons call rest ih =>
    intro m hm
    have h := (balanced_exec allowance call hm).after
    exact h.trans (ih _ (by rw [h.stack, h.global, hm]))

end HostCall

/-- **The call stack is balanced.** Evaluation of any expression or statement, in any state, with any
outcome, leaves the frames on the stack that it found there. So no evaluation, and no scripted call
that host code makes, fails because the stack is out of step or not as deep as before; the checks for
it change nothing; and an interpreter starts with the global frame alone on the stack, where every row of host
calls leaves it. -/
theorem call_stack_balanced (allowance : Nat) :
    (∀ e m, ((evalExpr allowance e).after m).stack = m.stack) ∧
    (∀ s m, ((evalStmt allowance s).after m).stack = m.stack) ∧
    (∀ e m f, (evalExpr allowance e).failure? m = some f → f.InStep) ∧
    (∀ s m f, (evalStmt allowance s).failure? m = some f → f.InStep) ∧
    (∀ cell a method args m f,
      ((evaluator allowance).callAdapter cell a method args).failure? m = some f → f.InStep) ∧
    (∀ body name kind parent, Exec.inFrame name kind parent ((evaluator allowance).runBody body)
        Flow.discard =
      Exec.inFrameUnchecked name kind parent ((evaluator allowance).runBody body)) ∧
    (∀ s, Exec.steadily (evalStmt allowance s) = evalStmt allowance s) ∧
    (∀ s m, m.stack = [m.global] →
      Exec.afterwards (evalStmt allowance s) Machine.resync m = evalStmt allowance s m) ∧
    (∀ config files directory input,
      let m := Machine.initial config files directory input
      m.stack = [m.global]) ∧
    (∀ m calls, m.stack = [m.global] →
      let m' := HostCall.run allowance m calls
      m'.stack = [m'.global]) := by
  have hev := balanced_evaluator allowance
  refine ⟨fun e m => (hev.expr e m).after.stack, fun s m => (hev.stmt s m).after.stack,
    fun e m f => (hev.expr e m).failure, fun s m f => (hev.stmt s m).failure,
    fun cell a method args m f => (Evaluator.balanced_callAdapter hev cell a method args m).failure,
    fun body name kind parent =>
      Exec.inFrame_eq_unchecked (Evaluator.balanced_runBody hev body) name kind parent _,
    fun s => Exec.steadily_eq (hev.stmt s), fun s m => Exec.afterwards_resync (hev.stmt s),
    fun _ _ _ _ => rfl, fun m calls hm => ?_⟩
  have h := HostCall.run_alike allowance calls m hm
  show _ = _
  rw [h.stack, h.global, hm]

end HostScript
