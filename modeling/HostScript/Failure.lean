import HostScript.Diagnostic
import HostScript.Primitive
import HostScript.Text.Listing
import HostScript.Value

/-!
# Failures

How an evaluation can end without a value: the text cannot be read, the script is at fault, host
code raised an exception, the evaluator broke one of its own rules, input could not be decoded, or
the evaluation was stopped from outside. Each cause is data; its wording is given by one function.
-/

set_option autoImplicit false

namespace HostScript

/-- Why a file cannot be read as text. -/
inductive FileError where
  | missing
  | directory
  | notDirectory
  | notText
  | nameTooLong
  | nulInName
  deriving DecidableEq, Repr

/-- The wording of a file error. -/
def FileError.message : FileError → String
  | .missing => "No such file or directory (os error 2)"
  | .directory => "Is a directory (os error 21)"
  | .notDirectory => "Not a directory (os error 20)"
  | .notText => "stream did not contain valid UTF-8"
  | .nameTooLong => "File name too long (os error 36)"
  | .nulInName => "file name contained an unexpected NUL byte"

/-- A fault of the script. Calls are given as written in messages, types by name. -/
inductive Fault where
  | undefinedSymbol (name : String)
  | classNotFound (name : String)
  | interfaceNotFound (name : String)
  | notInterface (className : String)
  | notIterable (type : String)
  | condition (type : String)
  | unaryOperand (type : String)
  | stepOperand (type : String)
  | operands (op : BinaryOp) (left right : String)
  | primitive (cause : Primitive.Error)
  | strayJump
  | strayJumpIn (method : String)
  | lengthType (type : String)
  | negativeLength (length : Int64)
  | noOuterNamespace
  | assignmentTarget
  | notIndexable (type : String)
  | indexType (type : String)
  | indexBounds (index : Int) (length : Nat)
  | noClassInformation (className : String)
  | memberOfNull (member : String)
  | noMember (type member : String)
  | noMemberInNamespace (member scope : String)
  | callDepth (limit : Nat) (method : String)
  | noMethodInNamespace (call scope : String)
  | noMethodOn (call className : String)
  | noStaticMethodOn (call className : String)
  | methodOfNull (method : String)
  | methodOf (method type : String)
  | argumentCount (signature : String) (expected found : Nat)
  | interfaceInstance (className : String)
  | noConstructor (call : String)
  | ambiguousCall (signatures : List String)
  | convert (type target : String)
  | voidFor (target : String)
  | cast (type target : String)
  | inaccessible (signature : String)
  | abstractCall (signature : String)
  | noField (field className : String)
  | noStaticField (field className : String)
  | fieldNotWritable (field className : String)
  | staticFieldNotWritable (field className : String)
  | noProperty (property className : String)
  | propertyNotWritable (property className : String)
  | notImplemented (method : String) (count : Nat) (scope : String)
  | unreadable (path : String) (cause : FileError)
  | commandArgument (command type : String)
  | noDirectory (path : String)
  | notVariable (name : String)
  | namesNoVariable (name : String)

/-- The wording of a fault. -/
def Fault.message : Fault → String
  | .undefinedSymbol name => s!"undefined symbol `{name}`"
  | .classNotFound name => s!"class `{name}` not found"
  | .interfaceNotFound name => s!"interface `{name}` not found"
  | .notInterface className => s!"`{className}` is not an interface"
  | .notIterable type => s!"cannot iterate over a value of type {type}"
  | .condition type => s!"condition must be boolean, found {type}"
  | .unaryOperand type => s!"bad operand type {type} for unary operator"
  | .stepOperand type => s!"bad operand type {type} for increment"
  | .operands op left right => s!"bad operand types for `{op.symbol}`: {left} and {right}"
  | .primitive cause => cause.message
  | .strayJump => "`break` or `continue` outside of a loop"
  | .strayJumpIn method => s!"`break` or `continue` outside of a loop in `{method}`"
  | .lengthType type => s!"array length must be an integer, found {type}"
  | .negativeLength length => s!"negative array size {length.toInt}"
  | .noOuterNamespace => "`super` used in the root namespace"
  | .assignmentTarget => "invalid assignment target"
  | .notIndexable type => s!"cannot index a value of type {type}"
  | .indexType type => s!"array index must be an integer, found {type}"
  | .indexBounds index length => s!"array index {index} out of bounds for length {length}"
  | .noClassInformation className => s!"no class information for {className}"
  | .memberOfNull member => s!"null value has no field `{member}`"
  | .noMember type member => s!"a value of type {type} has no field `{member}`"
  | .noMemberInNamespace member scope => s!"no field `{member}` in namespace `{scope}`"
  | .callDepth limit method => s!"maximum call depth {limit} exceeded calling `{method}`"
  | .noMethodInNamespace call scope => s!"method `{call}` not found in namespace `{scope}`"
  | .noMethodOn call className => s!"method `{call}` not found on {className}"
  | .noStaticMethodOn call className => s!"static method `{call}` not found on {className}"
  | .methodOfNull method => s!"attempt to invoke method `{method}` on null value"
  | .methodOf method type => s!"cannot invoke method `{method}` on a value of type {type}"
  | .argumentCount signature expected found =>
    s!"`{signature}` expects {expected} argument(s), got {found}"
  | .interfaceInstance className => s!"cannot instantiate interface {className}"
  | .noConstructor call => s!"no constructor {call} found"
  | .ambiguousCall signatures =>
    s!"ambiguous method call; candidates: {commaSeparated signatures}"
  | .convert type target => s!"cannot convert {type} to {target}"
  | .voidFor target => s!"void value used where {target} is expected"
  | .cast type target => s!"cannot cast {type} to {target}"
  | .inaccessible signature => s!"method `{signature}` is not accessible"
  | .abstractCall signature => s!"method `{signature}` is abstract and cannot be invoked"
  | .noField field className => s!"no field `{field}` on {className}"
  | .noStaticField field className => s!"no static field `{field}` on {className}"
  | .fieldNotWritable field className => s!"field `{field}` of {className} is not writable"
  | .staticFieldNotWritable field className =>
    s!"static field `{field}` of {className} is not writable"
  | .noProperty property className => s!"no property `{property}` on {className}"
  | .propertyNotWritable property className =>
    s!"no writable property `{property}` on {className}"
  | .notImplemented method count scope =>
    s!"method `{method}` with {count} argument(s) is not implemented by namespace `{scope}`"
  | .unreadable path cause => s!"cannot read `{path}`: {cause.message}"
  | .commandArgument command type => s!"`{command}` expected String but found {type}"
  | .noDirectory path => s!"no such directory: {path}"
  | .notVariable name => s!"`{name}` is not a variable"
  | .namesNoVariable name => s!"`{name}` does not name a variable"

/-- What the evaluator was doing when host code raised an exception. -/
inductive HostStep where
  | calling (signature : String)
  | reading (field : String)
  | readingBound (field className : String)
  | writing (field : String)

/-- The wording of a host step. -/
def HostStep.message : HostStep → String
  | .calling signature => s!"`{signature}` raised an exception"
  | .reading field => s!"reading field `{field}`"
  | .readingBound field className => s!"reading field `{field}` of {className}"
  | .writing field => s!"writing field `{field}`"

/-- A rule of the evaluator itself that did not hold. -/
inductive Inconsistency where
  | emptyStack
  | staleFrame (id : ScopeId)
  /-- A reference to a variable was used after the frame of the variable was gone. -/
  | danglingReference (id : ScopeId)
  | outOfStep (id : ScopeId)
  | depthChanged (found expected : Nat)

/-- The wording of an inconsistency. -/
def Inconsistency.message : Inconsistency → String
  | .emptyStack => "evaluation with an empty call stack"
  | .staleFrame id | .danglingReference id => s!"stale namespace reference {id.text}"
  | .outOfStep id => s!"call stack out of step: expected frame {id.text} on top"
  | .depthChanged found expected =>
    s!"call stack depth {found} does not match baseline {expected}"

/-- Where a failure arose: the construct and its bytes, and the source that the text came from. -/
structure Place where
  node : Option String := none
  span : Option Span := none
  label : Option String := none

/-- The place as the end of a message. -/
def Place.text (p : Place) : String :=
  (match p.node with
    | some node => s!" : at {node}"
    | none => "") ++ placeText p.label p.span

/-- Why an evaluation was stopped from outside. -/
inductive Suspension where
  /-- The allowance of steps is used up. -/
  | exhausted
  /-- A file has to be supplied before the evaluation can be repeated. -/
  | fileNeeded (path : String)
  /-- The text of a value was asked for that has no end. -/
  | endless

/-- How an evaluation ends without a value. -/
inductive Failure where
  | unread (diagnostic : Diagnostic)
  | fault (cause : Fault) (place : Place)
  | raised (step : HostStep) (exception : String) (place : Place)
  | broken (cause : Inconsistency)
  | input (cause : FileError)
  | stopped (cause : Suspension)

namespace Failure

/-- A fault that no place is known for yet. -/
def ofFault (cause : Fault) : Failure := .fault cause {}

/-- Adds the construct that failed, unless an inner one is known. -/
def locate (f : Failure) (span : Span) (node : String) : Failure :=
  match f with
  | .fault cause place =>
    match place.span with
    | none => .fault cause { place with span := some span, node := some node }
    | some _ => f
  | .raised step exception place =>
    match place.span with
    | none => .raised step exception { place with span := some span, node := some node }
    | some _ => f
  | other => other

/-- Adds the source of the text, unless an inner one is known. -/
def label (f : Failure) (source : Option String) : Failure :=
  match f with
  | .unread d => .unread { d with label := d.label.or source }
  | .fault cause place => .fault cause { place with label := place.label.or source }
  | .raised step exception place =>
    .raised step exception { place with label := place.label.or source }
  | other => other

/-- What a missing frame means to a reference that leads to it. -/
def dangle : Failure → Failure
  | .broken (.staleFrame id) => .broken (.danglingReference id)
  | other => other

/-- The source that a failure names. -/
def label? : Failure → Option String
  | .unread d => d.label
  | .fault _ place => place.label
  | .raised _ _ place => place.label
  | _ => none

/-- The class of a failure in reports. -/
def classify : Failure → String
  | .unread d => if d.isLexical then "Token error" else "Parser error"
  | .fault .. => "Evaluation error"
  | .raised .. => "Target error"
  | .broken _ => "Internal error"
  | .input _ => "I/O error"
  | .stopped _ => "Stopped"

/-- The wording of a failure. -/
def message : Failure → String
  | .unread d => d.message
  | .fault cause place => cause.message ++ place.text
  | .raised step exception place => s!"{step.message}: {exception}{place.text}"
  | .broken cause => s!"internal interpreter error: {cause.message}"
  | .input cause => s!"I/O error: {cause.message}"
  | .stopped .exhausted => "the allowance of steps is used up"
  | .stopped (.fileNeeded path) => s!"the file {path} is not supplied"
  | .stopped .endless => "the text of a value has no end"

end Failure

end HostScript
