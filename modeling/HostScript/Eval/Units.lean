import HostScript.Eval.Host
import HostScript.Syntax.Units

/-!
# Running texts

A text is run unit by unit. A text that cannot be read to its end runs up to there and fails then.
-/

set_option autoImplicit false

namespace HostScript

/-- The variable that holds the working directory. -/
def workingDirectoryName : String := "$cwd"

namespace Exec

/-- Runs a computation that has to leave the stack as deep as it was. -/
def steadily (x : Exec Flow) : Exec Flow := fun m =>
  let depth := m.stack.length
  let cut (found : Nat) (m : Machine) : Exec.Result Flow :=
    .error (.broken (.depthChanged found depth)) { m with stack := m.stack.drop (found - depth) }
  match x m with
  | .ok flow m =>
    let found := m.stack.length
    if found == depth then .ok flow m else cut found (flow.discard m)
  | .error f m =>
    let found := m.stack.length
    if found == depth then .error f m else cut found m

/-- The directory that relative paths start from. -/
def workingDirectory : Exec String := fun m =>
  let m := m.settle
  let value := (m.store.arena.frame? m.global).bind fun f => f.vars.get? workingDirectoryName
  .ok (((value.map (·.value)).bind Value.text?).getD ".") m

/-- The path that a script means. -/
def resolvePath (path : String) : Exec String := do
  if path.startsWith "/" then
    return path
  else
    return joinPath (← workingDirectory) path

/-- What is found at a path. -/
def entryAt (path : String) : Exec Entry := do
  match (← get).files.entry path with
  | .unknown => throw (.stopped (.fileNeeded path))
  | entry => return entry

/-- The text of a file; failures name the file. -/
def readFile (path : String) : Exec String := do
  let refuse (cause : FileError) : Exec String :=
    throw (.fault (.unreadable path cause) { label := some path })
  match ← entryAt path with
  | .file bytes =>
    match decodeText bytes with
    | .ok text => return text
    | .error cause => refuse cause
  | .directory => refuse .directory
  | .absent cause => refuse cause
  | .unknown => refuse .missing

end Exec

namespace Evaluator

open Exec

/-- Runs units in order; `failure` is the diagnostic that follows the last one, if any. The value is
that of the last unit, or what a unit returned. -/
def runUnits (ev : Evaluator) (label : Option String) (failure : Option Diagnostic)
    (last : Value) : List Stmt → Exec Value
  | [] =>
    match failure with
    | some d => unlessFailed last (throw ((Failure.unread d).label label))
    | none => return last
  | unit :: rest => do
    let flow ← unlessFailed last (mapFailure (steadily (ev.stmt unit)) (·.label label))
    drop last
    match flow with
    | .normal v => ev.runUnits label failure v rest
    | .returned v => return v
    | .broke | .continued =>
      throw (((Failure.ofFault .strayJump).locate unit.span "statement").label label)

/-- Runs a text in the current frame; failures name its label. -/
def runText (ev : Evaluator) (source : String) (label : Option String) : Exec Value :=
  let (units, failure) := readUnits source
  ev.runUnits label failure .void (units.map Prod.fst)

/-- Runs a file in a frame, on a stack of its own. -/
def runFile (ev : Evaluator) (path : String) (scope : ScopeId) : Exec Value := do
  let path ← resolvePath path
  let text ← readFile path
  onStack [scope] (ev.runText text (some path))

end Evaluator

end HostScript
