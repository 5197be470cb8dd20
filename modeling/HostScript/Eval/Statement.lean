import HostScript.Eval.Expression

/-!
# Statements

One step of the evaluation of a statement, given the evaluation of its parts. A loop takes an
allowance of rounds; an evaluation that uses it up is stopped.
-/

set_option autoImplicit false

namespace HostScript

namespace Exec

/-- Repeats a body as long as a test holds; an update runs between rounds. A jump out of the body
ends the loop or the statement around it. -/
def loop (test : Exec Bool) (body : Exec Flow) (update : Exec Unit) : Nat → Exec Flow
  | 0 => throw (.stopped .exhausted)
  | rounds + 1 => do
    if ← test then
      match ← body with
      | .broke => return .done
      | .returned v => return .returned v
      | .normal v =>
        drop v
        update
        loop test body update rounds
      | .continued =>
        update
        loop test body update rounds
    else
      return .done

/-- Repeats a body, testing after each round whether to go on. -/
def loopAfter (body : Exec Flow) (test : Exec Bool) : Nat → Exec Flow
  | 0 => throw (.stopped .exhausted)
  | rounds + 1 => do
    match ← body with
    | .broke => return .done
    | .returned v => return .returned v
    | .normal v =>
      drop v
      if ← test then loopAfter body test rounds else return .done
    | .continued => if ← test then loopAfter body test rounds else return .done

/-- Makes a class known in a frame by its simple name. -/
def importClass (here : ScopeId) (path : String) : Exec Unit := do
  match (← get).classes.load? path with
  | none => fault (.classNotFound path)
  | some _ => changeFrame here fun f =>
    ({ f with classImports := f.classImports.insert (simpleName path) path }, none, ())

/-- Makes the classes of a package known in a frame. -/
def importPackage (here : ScopeId) (path : String) : Exec Unit :=
  changeFrame here fun f =>
    if f.packageImports.contains path then (f, none, ())
    else ({ f with packageImports := f.packageImports ++ [path] }, none, ())

end Exec

namespace Evaluator

open Exec

/-- Evaluates expressions for their effects. -/
def effects (ev : Evaluator) : List Expr → Exec Unit
  | [] => return
  | e :: rest => do
    drop (← ev.expr e)
    ev.effects rest

/-- Runs statements for their effects. -/
def runAll (ev : Evaluator) : List Stmt → Exec Unit
  | [] => return
  | s :: rest => do
    let flow ← ev.stmt s
    modify flow.discard
    ev.runAll rest

/-- Runs a body with an item bound in the current frame. -/
def runRound (ev : Evaluator) (type : Option ValueType) (binding : String) (body : Stmt)
    (item : Value) : Exec Flow := do
  let frame ← scope
  let v ← match type with
    | some t => coerce t item .storing
    | none => pure item
  define frame binding v type
  ev.stmt body

/-- Runs a body once for each item, which is bound in a frame of its own. -/
def forItems (ev : Evaluator) (parent : ScopeId) (type : Option ValueType) (binding : String)
    (body : Stmt) : List Value → Exec Flow
  | [] => return .done
  | item :: rest => do
    let round := inFrame "foreach" .block parent (ev.runRound type binding body item) Flow.discard
    match ← onFailure round (·.dropAll rest) with
    | .broke =>
      modify (·.dropAll rest)
      return .done
    | .returned v =>
      modify (·.dropAll rest)
      return .returned v
    | .normal v =>
      drop v
      ev.forItems parent type binding body rest
    | .continued => ev.forItems parent type binding body rest

/-- Runs a body for each item of an array as it is at the start, or for each character of a
text. -/
def forEach (ev : Evaluator) (type : Option TypeName) (binding : String) (iterable : Expr)
    (body : Stmt) : Exec Flow := do
  let source ← ev.expr iterable
  holding source do
    let items ← match source with
      | .array cell _ => do copyAll ((← get).store.items cell).toList
      | .text s => pure (s.toList.map fun c => .primitive (.char c))
      | _ =>
        locating iterable.span (fun _ => iterable.describe) (fault (.notIterable source.typeName))
    let parent ← onFailure scope (·.dropAll items)
    let type ← onFailure (resolveType? parent type) (·.dropAll items)
    ev.forItems parent type binding body items

/-- Declares variables of a type in a frame. -/
def declareVariables (ev : Evaluator) (here : ScopeId) (type : ValueType) :
    List Declarator → Exec Unit
  | [] => return
  | d :: rest => do
    let v ← match d.initializer with
      | some e => ev.expr e
      | none => pure type.initial
    let v ← locating d.span (fun _ => s!"declaration of `{d.name}`") (coerce type v .storing)
    define here d.name v (some type)
    ev.declareVariables here type rest

/-- Runs a loop with its own variables in the current frame. -/
def runFor (ev : Evaluator) (init : List Stmt) (c : Option Expr) (update : List Expr) (body : Stmt)
    (rounds : Nat) : Exec Flow := do
  ev.runAll init
  let test := match c with
    | some c => ev.condition c
    | none => pure true
  loop test (ev.stmt body) (ev.effects update) rounds

/-- How a statement ends, given how its parts do. -/
def stmtStep (ev : Evaluator) (rounds : Nat) (s : Stmt) : Exec Flow := do
  match s with
  | .expr _ e => return .normal (← ev.expr e)
  | .declaration _ type declarators =>
    let here ← scope
    let type ← resolveType here type
    ev.declareVariables here type declarators
    return .done
  | .method _ name params returns body =>
    declare name params returns body
    return .done
  | .block _ body => ev.runBlock body
  | .ifElse _ c yes no =>
    if ← ev.condition c then
      ev.stmt yes
    else
      match no with
      | some other => ev.stmt other
      | none => return .done
  | .whileLoop _ c body => loop (ev.condition c) (ev.stmt body) (pure ()) rounds
  | .doWhile _ body c => loopAfter (ev.stmt body) (ev.condition c) rounds
  | .forLoop _ init c update body =>
    let parent ← scope
    inFrame "for" .block parent (ev.runFor init c update body rounds) Flow.discard
  | .forEach _ type binding iterable body => ev.forEach type binding iterable body
  | .returnValue _ value =>
    match value with
    | some e => return .returned (← ev.expr e)
    | none => return .returned .void
  | .breakLoop _ => return .broke
  | .continueLoop _ => return .continued
  | .importName span path wildcard =>
    let here ← scope
    if wildcard then
      importPackage here path
    else
      locating span (fun _ => s!"import `{path}`") (importClass here path)
    return .done
  | .empty _ => return .done

end Evaluator

end HostScript
