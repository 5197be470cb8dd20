import HostScript.Coercion

/-!
# Blocks and scripted methods

The evaluator is written with its recursion open: each piece is given the evaluation of smaller
expressions and statements, and the knot is tied in one place.
-/

set_option autoImplicit false

namespace HostScript

/-- How a statement ends. -/
inductive Flow where
  | normal (value : Value)
  | returned (value : Value)
  | broke
  | continued

/-- The value that a flow carries. -/
def Flow.value? : Flow → Option Value
  | .normal v | .returned v => some v
  | .broke | .continued => none

/-- Drops the value that a flow carries. -/
def Flow.discard (flow : Flow) (m : Machine) : Machine :=
  match flow.value? with
  | some v => m.drop v
  | none => m

/-- The end of a statement without a value. -/
def Flow.done : Flow := .normal .void

/-- Evaluation of expressions and statements, for the pieces that need it. -/
structure Evaluator where
  expr : Expr → Exec Value
  stmt : Stmt → Exec Flow

namespace Exec

/-- Declares a method in the current frame. -/
def declare (name : String) (params : List Param) (returns : Option TypeName) (body : List Stmt) :
    Exec Unit := do
  let declaring ← scope
  let method : ScriptMethod := { name, params, returns, body, declaring }
  fun m =>
    let m := m.settle
    match m.store.arena.declare method with
    | .ok arena => .ok () { m with store := { m.store with arena } }
    | .error id => .error (.broken (.staleFrame id)) m

/-- Declares the methods among some statements. -/
def hoist : List Stmt → Exec Unit
  | [] => return
  | .method _ name params returns body :: rest => do
    declare name params returns body
    hoist rest
  | _ :: rest => hoist rest

/-- Binds arguments to the parameters of a call; the frame takes them over. -/
def bindParams (frame : ScopeId) : List (Param × Option ValueType) → List Value → Exec Unit
  | (p, type) :: params, arg :: args => do
    onFailure (do
      let v ← match type with
        | some t => coerce t arg .passing
        | none => pure arg
      define frame p.name v type) (·.dropAll args)
    bindParams frame params args
  | _, _ => return

/-- Refuses a scripted call when as many as the limit allows are in flight. -/
def checkDepth (method : String) : Exec Unit := do
  let m ← get
  if m.depth ≥ m.config.maxDepth then
    fault (.callDepth m.config.maxDepth method)

/-- Runs a computation as one more scripted call in flight. -/
def oneDeeper {α : Type} (x : Exec α) : Exec α := do
  modify fun m => { m with depth := m.depth + 1 }
  afterwards x fun m => { m with depth := m.depth - 1 }

end Exec

namespace Evaluator

open Exec

/-- Runs statements other than method declarations in order. The last value is the value of the
whole; a jump ends it. -/
def runFrom (ev : Evaluator) (last : Value) : List Stmt → Exec Flow
  | [] => return .normal last
  | .method .. :: rest => ev.runFrom last rest
  | s :: rest => do
    match ← unlessFailed last (ev.stmt s) with
    | .normal v =>
      drop last
      ev.runFrom v rest
    | jump =>
      drop last
      return jump

/-- Runs statements in the current frame; their methods are known from the start. -/
def runBody (ev : Evaluator) (body : List Stmt) : Exec Flow := do
  hoist body
  ev.runFrom .void body

/-- Runs statements in a frame of their own. -/
def runBlock (ev : Evaluator) (body : List Stmt) : Exec Flow := do
  let parent ← scope
  inFrame "block" .block parent (ev.runBody body) Flow.discard

/-- Runs the body of a scripted method in the current frame, which takes over the arguments. -/
def runCall (ev : Evaluator) (method : ScriptMethod) (types : List (Option ValueType))
    (args : List Value) : Exec Value := do
  let frame ← scope
  bindParams frame (method.params.zip types) args
  match ← ev.runBody method.body with
  | .returned v => return v
  | .normal v =>
    drop v
    return .void
  | .broke | .continued => fault (.strayJumpIn method.name)

/-- Calls a scripted method, which takes over its arguments, in a frame under the one that declared
it. -/
def invokeScripted (ev : Evaluator) (method : ScriptMethod) (args : List Value) : Exec Value := do
  if args.length != method.arity then
    onFailure (fault (.argumentCount method.signature method.arity args.length)) (·.dropAll args)
  let types ← onFailure (resolveParams method.declaring method.params) (·.dropAll args)
  let returns ← onFailure (resolveType? method.declaring method.returns) (·.dropAll args)
  onFailure (checkDepth method.name) (·.dropAll args)
  let value ← oneDeeper <|
    inFrame method.name .call method.declaring (ev.runCall method types args) fun v m => m.drop v
  match returns with
  | none | some (.primitive .void) => return value
  | some type => if value.isVoid then return value else coerce type value .storing

/-- Calls a scripted `invoke` with the name of a call and its arguments in an array. -/
def invokeGeneric (ev : Evaluator) (method : ScriptMethod) (name : String) (args : List Value) :
    Exec Value := do
  let packed ← makeArray .object args
  ev.invokeScripted method [.text name, packed]

end Evaluator

end HostScript
