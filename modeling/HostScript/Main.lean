import HostScript.CommandLine

/-!
# The program

Reads arguments, standard input and files, and writes what the command line computes. A file is read
when an evaluation turns out to need it; the evaluation is then repeated from where it was started.
-/

set_option autoImplicit false

namespace HostScript.Main

/-- What is found at a path on disk. -/
def entryOnDisk (path : String) : IO Entry := do
  let place := (← IO.currentDir) / path
  if ← place.isDir then
    return .directory
  try
    return .file (← IO.FS.readBinFile place)
  catch e =>
    match e with
    | .inappropriateType .. => return .absent .notDirectory
    | _ => return .absent .missing

/-- The files looked at so far. -/
def filesOf (known : List (String × Entry)) : Files :=
  ⟨fun path => (known.lookup path).getD .unknown⟩

/-- Repeats a computation until all files that it needs are known. -/
partial def supplied {α : Type} (x : Exec α) (m : Machine) (known : List (String × Entry)) :
    IO (Exec.Result α) := do
  match x { m with files := filesOf known } with
  | .error (.stopped (.fileNeeded path)) _ =>
    supplied x m ((path, ← entryOnDisk path) :: known)
  | result => return result

/-- Writes what a machine has written since it was last asked. -/
def flush (m : Machine) : IO Machine := do
  (← IO.getStdout).putStr m.console.output
  (← IO.getStderr).putStr m.console.errors
  (← IO.getStdout).flush
  return { m with console := { m.console with output := "", errors := "" } }

/-- Reads lines and runs them until the session ends. -/
partial def session (ev : Evaluator) (m : Machine) (buffer : String) : IO Unit := do
  let line ← (← IO.getStdin).getLine
  let text := String.ofList (CommandLine.stripLineEnd line.toList)
  if line.isEmpty || CommandLine.isQuit text then
    match ← supplied (ev.endInput buffer) m [] with
    | .ok _ m | .error _ m => discard (flush m)
  else
    match ← supplied (ev.acceptLine buffer text) m [] with
    | .ok buffer m => session ev (← flush m) buffer
    | .error _ m => session ev (← flush m) ""

/-- Runs the program. -/
def run (args : List String) : IO UInt32 := do
  match CommandLine.parse args with
  | none =>
    (← IO.getStderr).putStrLn
      "usage: [--chain-first] [--max-depth N] [run FILE | eval TEXT | repl]"
    return 2
  | some o =>
    let directory := toString (← IO.currentDir)
    let m := Machine.initial o.config (filesOf []) directory []
    let ev := evaluator ample
    if o.task = .repl then
      session ev m ""
      return 0
    else
      let result ← supplied (CommandLine.perform ev "" o.task) m []
      let outcome := CommandLine.outcome result
      (← IO.getStdout).putStr outcome.output
      (← IO.getStderr).putStr outcome.errors
      return outcome.code.toUInt32

end HostScript.Main

/-- Runs the program on its arguments. -/
def main (args : List String) : IO UInt32 := HostScript.Main.run args
