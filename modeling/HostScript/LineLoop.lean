import HostScript.Interpreter

/-!
# Reading line by line

Lines are collected in a buffer until they form complete units, which are run at once; what is left
of the last line waits for more. An interactive loop reports failures and goes on; any other ends
with the first one.
-/

set_option autoImplicit false

namespace HostScript

/-- A text without its first bytes. -/
def dropBytes : Nat → List Char → List Char
  | _, [] => []
  | n, c :: cs => if n < c.utf8Size then c :: cs else dropBytes (n - c.utf8Size) cs

/-- A line without the line ends at its end. -/
def trimLineEnd (line : List Char) : List Char :=
  (line.reverse.dropWhile fun c => c == '\n' || c == '\r').reverse

/-- A byte sequence cut after every line feed. -/
def splitLines : List UInt8 → List UInt8 → List (List UInt8)
  | line, [] => if line.isEmpty then [] else [line.reverse]
  | line, b :: rest =>
    if b == 10 then (b :: line).reverse :: splitLines [] rest else splitLines (b :: line) rest

/-- The lines of a byte sequence, without their ends; each has to be text. -/
def linesOf (bytes : ByteArray) : List (Except FileError String) :=
  (splitLines [] bytes.toList).map fun line =>
    (decodeText ⟨line.toArray⟩).map fun text => String.ofList (trimLineEnd text.toList)

/-- How the complete units of a text end. -/
inductive Tail where
  | complete
  /-- A unit has begun; this is its text. -/
  | unfinished (rest : String)
  | broken (diagnostic : Diagnostic)

/-- The complete units of a text, and what comes after them. At the end of input nothing can be
unfinished. -/
def takeUnits (text : String) (atEnd : Bool) : List Stmt × Tail :=
  let (units, failure) := readUnits text
  let tail := match failure with
    | none => .complete
    | some d =>
      if d.incomplete && !atEnd then
        let done := (units.getLast?.map Prod.snd).getD 0
        .unfinished (String.ofList (dropBytes done text.toList))
      else
        .broken d
  (units.map Prod.fst, tail)

/-- The machine with the global frame alone on its stack. -/
def Machine.resync (m : Machine) : Machine :=
  if m.stack = [m.global] then m else (m.restack (.reset m.global)).2

namespace Exec

/-- Reports a failure and goes on if the loop is interactive. -/
def report (f : Failure) : Exec Unit := do
  match f with
  | .stopped _ => throw f
  | _ =>
    if (← get).config.interactive then
      modify fun m => m.printError s!"// {f.classify}: {f.message}"
    else
      throw f

/-- Runs a computation; its failure is reported. Says whether it succeeded. -/
def reporting (x : Exec Unit) : Exec Bool := fun m =>
  match x m with
  | .ok _ m => .ok true m
  | .error f m => (do report f; return false : Exec Bool) m

/-- Writes a line with the text of a value that is to be shown, and drops the value. -/
def present (v : Value) (shown : Bool) : Exec Unit :=
  holding v do
    if shown && !v.isVoid then
      let line ← textOf v
      modify (·.print line)

/-- Notes the prompt for a line; only a line that starts a unit is asked for. -/
def prompt (buffer : String) : Exec Unit :=
  modify fun m =>
    let shown := if m.config.interactive && buffer.isEmpty then m.config.prompt else ""
    { m with console := { m.console with prompts := shown :: m.console.prompts } }

end Exec

namespace Evaluator

open Exec

/-- Runs a unit at the top level and shows its value if results are shown. -/
def runTopUnit (ev : Evaluator) (unit : Stmt) : Exec Unit := do
  let flow ← afterwards (ev.stmt unit) Machine.resync
  match flow.value? with
  | some v => present v (← get).config.showResults
  | none => throw ((Failure.ofFault .strayJump).locate unit.span "statement")

/-- Runs units one after the other until one fails. Says whether all succeeded. -/
def runAllUnits (ev : Evaluator) : List Stmt → Exec Bool
  | [] => return true
  | unit :: rest => do
    if ← reporting (ev.runTopUnit unit) then ev.runAllUnits rest else return false

/-- Runs the complete units of a text and gives what is left of it. -/
def drain (ev : Evaluator) (text : String) (atEnd : Bool) : Exec String := do
  let (units, tail) := takeUnits text atEnd
  if ← ev.runAllUnits units then
    match tail with
    | .complete => return ""
    | .unfinished rest => return rest
    | .broken d =>
      report (.unread d)
      return ""
  else
    return ""

/-- Takes one more line into the buffer. -/
def acceptLine (ev : Evaluator) (buffer line : String) : Exec String :=
  ev.drain (buffer ++ line ++ "\n") false

/-- Runs what is left in the buffer at the end of input. -/
def endInput (ev : Evaluator) (buffer : String) : Exec Unit := do
  if !(Text.trim buffer.toList).isEmpty then
    let _ ← ev.drain buffer true

/-- Runs lines from a source; a further computation takes note of each line that is asked for. -/
def runLines (ev : Evaluator) (noted : Exec Unit) (buffer : String) :
    List (Except FileError String) → Exec Unit
  | [] => do
    prompt buffer
    noted
    ev.endInput buffer
  | line :: rest => do
    prompt buffer
    noted
    match line with
    | .error cause => throw (.input cause)
    | .ok line =>
      let buffer ← ev.acceptLine buffer line
      ev.runLines noted buffer rest

/-- Runs the lines of the console's input, which are used up one by one. -/
def runConsole (ev : Evaluator) : Exec Unit := do
  let noted : Exec Unit :=
    modify fun m => { m with console := { m.console with input := m.console.input.tail } }
  ev.runLines noted "" ((← get).console.input.map .ok)

end Evaluator

end HostScript
