import HostScript.Eval.Dispatch

/-!
# Expressions

One step of the evaluation of an expression, given the evaluation of its parts. Every value that a
step obtains is passed on or dropped on every way out; operands are dropped right before left.
-/

set_option autoImplicit false

namespace HostScript

/-- The effect of a binary operator on two values other than the short-circuit ones. -/
def Machine.combine (m : Machine) (op : BinaryOp) (left right : Value) : Except Failure Value :=
  let joins := match op, left, right with
    | .add, .text _, _ | .add, _, .text _ => true
    | _, _, _ => false
  if joins then
    if m.store.hasText none left && m.store.hasText none right then
      .ok (.text (m.textOf left ++ m.textOf right))
    else
      .error (.stopped .endless)
  else
    match left.operand?, right.operand? with
    | some a, some b =>
      match Primitive.binary op a b with
      | .ok p => .ok (.primitive p)
      | .error e => .error (.ofFault (.primitive e))
    | _, _ =>
      match op with
      | .equal => .ok (.bool (left.same right))
      | .notEqual => .ok (.bool (!left.same right))
      | _ => .error (.ofFault (.operands op left.typeName right.typeName))

namespace Exec

/-- The effect of a binary operator. -/
def combine (op : BinaryOp) (left right : Value) : Exec Value := do
  match (← get).combine op left right with
  | .ok v => return v
  | .error failure => throw failure

/-- The scripted object of the method or namespace being run. -/
def thisObject : Exec Value := do
  let here ← scope
  objectFor (← look fun arena => arena.home here)

/-- The scripted object around the one being run. -/
def outerObject : Exec Value := do
  let here ← scope
  let home ← look fun arena => arena.home here
  match (← frame home).parent with
  | none => fault .noOuterNamespace
  | some parent => objectFor (← look fun arena => arena.home parent)

/-- What a compound assignment stores: the result of the operator, in the kind that the place has
now. -/
def combined (op : BinaryOp) (current value : Value) : Exec Value := do
  let result ← combine op current value
  match current.operand?, result with
  | some old, .primitive new =>
    match new.cast old.kind with
    | .ok p => return .primitive p
    | .error e => fault (.primitive e)
  | _, _ => return result

end Exec

namespace Evaluator

open Exec

/-- The truth value of an expression. -/
def condition (ev : Evaluator) (e : Expr) : Exec Bool := do
  let value ← ev.expr e
  holding value do
    match value.primitive?.bind Primitive.toBool? with
    | some b => return b
    | none => locating e.span (fun _ => e.describe) (fault (.condition value.typeName))

/-- The values of expressions, those obtained so far given in reverse. -/
def argsFrom (ev : Evaluator) (done : List Value) : List Expr → Exec (List Value)
  | [] => return done.reverse
  | e :: rest => do
    let v ← onFailure (ev.expr e) (·.dropAll done.reverse)
    ev.argsFrom (v :: done) rest

/-- The values of arguments. -/
def args (ev : Evaluator) (es : List Expr) : Exec (List Value) := ev.argsFrom [] es

/-- The items of an array initializer, those obtained so far given in reverse. -/
def itemsFrom (ev : Evaluator) (element : ValueType) (done : List Value) :
    List Expr → Exec (List Value)
  | [] => return done.reverse
  | e :: rest => do
    let v ← onFailure (do
      let v ← ev.expr e
      coerce element v .storing) (·.dropAll done.reverse)
    ev.itemsFrom element (v :: done) rest

/-- Reads static members one after the other. -/
def readPath (ev : Evaluator) (value : Value) : List String → Exec Value
  | [] => return value
  | member :: rest => do
    let next ← holding value (ev.readMember value member)
    ev.readPath next rest

/-- The value of a dotted path whose longest possible front names a class, which has at least two
segments. -/
def classPathFrom (ev : Evaluator) (here : ScopeId) (segments : List String) :
    Nat → Exec (Option Value)
  | 0 => return none
  | n + 1 => do
    let front := n + 2
    match ← lookupClass here (".".intercalate (segments.take front)) with
    | some c => return some (← ev.readPath c.value (segments.drop front))
    | none => ev.classPathFrom here segments n

/-- The value of a dotted path that starts with no variable but with a class name. -/
def classPath (ev : Evaluator) (path : String) : Exec (Option Value) := do
  let here ← scope
  let segments := path.splitOn "."
  match ← ev.valueOf? here (segments.headD "") with
  | some v =>
    drop v
    return none
  | none => ev.classPathFrom here segments (segments.length - 1)

/-- The place of an array element. -/
def elementReference (ev : Evaluator) (target index : Expr) : Exec Reference := do
  let array ← ev.expr target
  unlessFailed array do
    match array with
    | .array cell type =>
      let position ← ev.expr index
      holding position do
        match position.integer? with
        | none => fault (.indexType position.typeName)
        | some i =>
          if i < 0 then
            fault (.indexBounds i.toInt ((← get).store.items cell).size)
          else
            return .element cell type i.toInt.toNat
    | _ => fault (.notIndexable array.typeName)

/-- The place that an expression stands for as the target of an assignment. -/
def reference (ev : Evaluator) : Expr → Exec Reference
  | .name _ name => do referenceTo (← scope) name
  | .field _ target member => do
    let object ← ev.expr target
    holding object (memberReference object member)
  | .index _ target index => ev.elementReference target index
  | .group _ inner => ev.reference inner
  | e => locating e.span (fun _ => e.describe) (fault .assignmentTarget)

/-- Runs a computation on a place, whose object is dropped afterwards. -/
def withReference {α : Type} (ev : Evaluator) (target : Expr) (x : Reference → Exec α) :
    Exec α := do
  let r ← ev.reference target
  afterwards (x r) (dropReference r)

/-- The value of an assignment. -/
def assignment (ev : Evaluator) (target : Expr) (op : Option BinaryOp) (value : Expr) :
    Exec Value :=
  ev.withReference target fun r => do
    let v ← ev.expr value
    match op with
    | none => ev.assign r v
    | some op =>
      holding v do
        let current ← ev.read r
        let stored ← holding current (combined op current v)
        ev.assign r stored

/-- Adds to a place; the value is the one before or after. -/
def stepped (ev : Evaluator) (step : Step) (target : Expr) (before : Bool) : Exec Value :=
  ev.withReference target fun r => do
    let current ← ev.read r
    unlessFailed current do
      match current with
      | .primitive p =>
        if p.kind.isNumeric then
          match p.step step.delta with
          | .ok next =>
            drop (← ev.assign r (.primitive next))
            return if before then .primitive next else current
          | .error e => fault (.primitive e)
        else
          fault (.stepOperand current.typeName)
      | _ => fault (.stepOperand current.typeName)

/-- The value of a binary expression. -/
def binary (ev : Evaluator) (op : BinaryOp) (left right : Expr) : Exec Value := do
  match op with
  | .and =>
    if ← ev.condition left then return .bool (← ev.condition right) else return .bool false
  | .or =>
    if ← ev.condition left then return .bool true else return .bool (← ev.condition right)
  | _ =>
    let l ← ev.expr left
    holding l do
      let r ← ev.expr right
      holding r (combine op l r)

/-- The value of an expression, given the values of its parts. -/
def exprForm (ev : Evaluator) (e : Expr) : Exec Value := do
  match e with
  | .literal _ value => return .ofLiteral value
  | .name _ name =>
    match ← ev.valueOf? (← scope) name with
    | some v => return v
    | none => fault (.undefinedSymbol name)
  | .this _ => thisObject
  | .super _ => outerObject
  | .binary _ op left right => ev.binary op left right
  | .unary _ op operand =>
    let v ← ev.expr operand
    holding v do
      match v.operand? with
      | none => fault (.unaryOperand v.typeName)
      | some p =>
        match p.unary op with
        | .ok q => return .primitive q
        | .error e => fault (.primitive e)
  | .assign _ target op value => ev.assignment target op value
  | .preStep _ step target => ev.stepped step target true
  | .postStep _ step target => ev.stepped step target false
  | .conditional _ c yes no => if ← ev.condition c then ev.expr yes else ev.expr no
  | .call _ name es => do ev.invoke name (← ev.args es)
  | .methodCall _ target name es =>
    let receiver ← ev.expr target
    holding receiver do
      ev.invokeOn receiver name (← ev.args es)
  | .field _ target member =>
    let found ← match e.qualifiedName? with
      | some path => ev.classPath path
      | none => pure none
    match found with
    | some v => return v
    | none =>
      let object ← ev.expr target
      holding object (ev.readMember object member)
  | .index _ target index =>
    let r ← ev.elementReference target index
    afterwards (ev.read r) (dropReference r)
  | .new _ type es =>
    match ← lookupClass (← scope) type.name with
    | none => fault (.classNotFound type.name)
    | some c => ev.construct c (← ev.args es)
  | .newArray _ element length =>
    let type ← resolveType (← scope) element
    let v ← ev.expr length
    holding v do
      match v.integer? with
      | none => fault (.lengthType v.typeName)
      | some n =>
        if n < 0 then
          fault (.negativeLength n)
        else
          makeArray type (List.replicate n.toInt.toNat type.initial)
  | .arrayInit _ element es =>
    let type ← resolveType (← scope) element
    makeArray type (← ev.itemsFrom type [] es)
  | .cast _ type operand =>
    let v ← ev.expr operand
    let target ← unlessFailed v (do resolveType (← scope) type)
    cast target v
  | .group _ inner => ev.expr inner

/-- The value of an expression; a failure names the expression unless a part of it is named. -/
def exprStep (ev : Evaluator) (e : Expr) : Exec Value :=
  locating e.span (fun _ => e.describe) (ev.exprForm e)

end Evaluator

end HostScript
