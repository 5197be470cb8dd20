import HostScript.LineLoop

/-!
# The command line

A script can be run from a file, given as an argument, or typed line by line. The first failure of a
file or an argument is written to the error sink and makes the exit code 1.
-/

set_option autoImplicit false

namespace HostScript.CommandLine

/-- What to do. -/
inductive Task where
  | run (path : String)
  | eval (text : String)
  | repl
  deriving DecidableEq, Repr

/-- The arguments of the program. -/
structure Options where
  chainFirst : Bool := false
  maxDepth : Nat := 200
  task : Task := .repl

/-- A number written in digits, after an optional plus sign. -/
def depth? (s : String) : Option Nat :=
  let digits := match s.toList with
    | '+' :: digits => digits
    | digits => digits
  if digits.isEmpty || !digits.all Char.isDigit then none
  else some (Text.numeral 10 Text.decimalDigit digits)

/-- The task that words other than options ask for; without any, lines are read. -/
def task? : List String → Option Task
  | [] | ["repl"] => some .repl
  | ["run", path] => some (.run path)
  | ["eval", text] => some (.eval text)
  | _ => none

/-- Reads arguments. Options stand anywhere before a lone `--`; the other words, a lone `-` among
them, are collected. -/
def parseFrom (o : Options) (words : List String) : List String → Option Options
  | [] => (task? words).map fun task => { o with task }
  | "--" :: rest => (task? (words ++ rest)).map fun task => { o with task }
  | "--chain-first" :: rest => parseFrom { o with chainFirst := true } words rest
  | "--max-depth" :: n :: rest =>
    (depth? n).bind fun maxDepth => parseFrom { o with maxDepth } words rest
  | word :: rest =>
    match word.splitOn "=" with
    | ["--max-depth", n] => (depth? n).bind fun maxDepth => parseFrom { o with maxDepth } words rest
    | _ =>
      if word.startsWith "-" && word != "-" then none else parseFrom o (words ++ [word]) rest

/-- Reads arguments. -/
def parse (args : List String) : Option Options := parseFrom {} [] args

/-- The configuration that the arguments ask for. -/
def Options.config (o : Options) : Config :=
  let order := if o.chainFirst then NameOrder.chainThenBound else .localThenBound
  let typed := o.task = .repl
  { order, maxDepth := o.maxDepth, interactive := typed, showResults := typed }

/-- Whether a typed line ends the session. -/
def isQuit (line : String) : Bool :=
  let word := String.ofList (Text.trim line.toList)
  word == ":quit" || word == ":exit"

/-- A line of a session without its end, a line feed with or without a carriage return. -/
def stripLineEnd (line : List Char) : List Char :=
  match line.reverse with
  | '\n' :: '\r' :: rest => rest.reverse
  | '\n' :: rest => rest.reverse
  | _ => line

/-- A text cut after every line feed. -/
def cutLines : List Char → List Char → List (List Char)
  | line, [] => if line.isEmpty then [] else [line.reverse]
  | line, c :: rest =>
    if c == '\n' then (c :: line).reverse :: cutLines [] rest else cutLines (c :: line) rest

/-- The lines typed before the session is ended. -/
def typedLines (input : String) : List String :=
  let lines := (cutLines [] input.toList).map fun line => String.ofList (stripLineEnd line)
  lines.takeWhile fun line => !isQuit line

/-- Carries out a task on a machine. -/
def perform (ev : Evaluator) (input : String) : Task → Exec Unit
  | .run path => do
    let v ← ev.runFile path (← get).global
    Exec.drop v
  | .eval text => do
    let v ← ev.eval text (← get).global
    Exec.present v true
  | .repl => ev.runLines (pure ()) "" ((typedLines input).map .ok)

/-- What the program leaves behind. -/
structure Outcome where
  code : Nat
  output : String
  errors : String

/-- The line that reports a failure. -/
def failureLine (f : Failure) : String := s!"{f.classify}: {f.message}\n"

/-- The outcome of a finished computation. -/
def outcome : Exec.Result Unit → Outcome
  | .ok _ m => ⟨0, m.console.output, m.console.errors⟩
  | .error f m => ⟨1, m.console.output, m.console.errors ++ failureLine f⟩

/-- Runs the program on arguments that make sense. -/
def execute (o : Options) (input : String) (files : Files) (directory : String) : Outcome :=
  outcome (perform (evaluator ample) input o.task (.initial o.config files directory []))

end HostScript.CommandLine
