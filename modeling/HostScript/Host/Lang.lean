import HostScript.Host.Class
import HostScript.Text.Letter
import HostScript.Text.Numeral

/-!
# The package `lang`

The classes that every interpreter starts with: plain objects, texts, mathematical functions,
integers and text builders. Texts are sequences of characters, and positions in them count
characters.
-/

set_option autoImplicit false

namespace HostScript.Lang

/-- The type `int`. -/
def intType : ValueType := .primitive .int

/-- The type `long`. -/
def longType : ValueType := .primitive .long

/-- The type `double`. -/
def doubleType : ValueType := .primitive .double

/-- An instance method. -/
def method (name : String) (params : List ValueType)
    (body : Option Value → List Value → Action) : HostMethod :=
  { name, params, body := some body }

/-- A static method. -/
def staticMethod (name : String) (params : List ValueType) (body : List Value → Action) :
    HostMethod :=
  { name, params, isStatic := true, body := some fun _ args => body args }

/-- The integer in an argument. -/
def intArg (args : List Value) (i : Nat) : Int64 :=
  ((args[i]?.bind Value.primitive?).bind Primitive.toInt64?).getD 0

/-- The number in an argument. -/
def doubleArg (args : List Value) (i : Nat) : Float :=
  ((args[i]?.bind Value.primitive?).bind Primitive.toDouble?).getD 0.0

/-- Goes on with the text in an argument. -/
def withText (args : List Value) (i : Nat) (next : String → Action) : Action :=
  match args[i]?.bind Value.text? with
  | some s => next s
  | none => .raise "null String argument"

/-- Goes on with the characters of the receiver. -/
def onText (receiver : Option Value) (next : List Char → Action) : Action :=
  match receiver with
  | some (.text s) => next s.toList
  | _ => .raise "receiver is not a String"

/-- A method on the characters of the receiver. -/
def textMethod (name : String) (params : List ValueType)
    (body : List Char → List Value → Action) : HostMethod :=
  method name params fun receiver args => onText receiver fun cs => body cs args

/-! ## Texts -/

/-- The character at a position. -/
def charAt (cs : List Char) (index : Int) : Except String Char :=
  match (if index < 0 then none else cs[index.toNat]?) with
  | some c => .ok c
  | none => .error s!"String index out of range: {index}"

/-- The characters from one position up to another. -/
def slice (cs : List Char) (first last : Int) : Except String (List Char) :=
  let length := cs.length
  if first < 0 || last > length || first > last then
    .error s!"begin {first}, end {last}, length {length}"
  else
    .ok ((cs.drop first.toNat).take (last - first).toNat)

/-- The first position at which a text occurs in another. -/
def indexIn (needle : List Char) : List Char → Option Nat
  | [] => if needle.isEmpty then some 0 else none
  | c :: cs =>
    if needle.isPrefixOf (c :: cs) then some 0 else (indexIn needle cs).map (· + 1)

/-- The position that a text occurs at, or -1. -/
def indexOf (cs needle : List Char) : Int32 :=
  match indexIn needle cs with
  | some i => Int32.ofNat i
  | none => -1

/-- Returns a text. -/
def returnText (cs : List Char) : Action := .done (.text (String.ofList cs))

/-- Returns a text or raises an exception. -/
def returnSlice : Except String (List Char) → Action
  | .ok cs => returnText cs
  | .error message => .raise message

/-- The class of texts. -/
def textClass : HostClass where
  name := "lang.String"
  methods := [
    textMethod "length" [] fun cs _ => .done (.int (Int32.ofNat cs.length)),
    textMethod "charAt" [intType] fun cs args =>
      match charAt cs (intArg args 0).toInt with
      | .ok c => .done (.primitive (.char c))
      | .error message => .raise message,
    textMethod "substring" [intType] fun cs args =>
      returnSlice (slice cs (intArg args 0).toInt cs.length),
    textMethod "substring" [intType, intType] fun cs args =>
      returnSlice (slice cs (intArg args 0).toInt (intArg args 1).toInt),
    textMethod "toUpperCase" [] fun cs _ =>
      .done (.text (Text.upperCase (String.ofList cs))),
    textMethod "toLowerCase" [] fun cs _ =>
      .done (.text (Text.lowerCase (String.ofList cs))),
    textMethod "trim" [] fun cs _ => returnText (Text.trim cs),
    textMethod "indexOf" [.text] fun cs args =>
      withText args 0 fun needle => .done (.int (indexOf cs needle.toList)),
    textMethod "startsWith" [.text] fun cs args =>
      withText args 0 fun start => .done (.bool (start.toList.isPrefixOf cs)),
    textMethod "endsWith" [.text] fun cs args =>
      withText args 0 fun ending => .done (.bool (ending.toList.isSuffixOf cs)),
    textMethod "equals" [.object] fun cs args =>
      .done (.bool (args.head?.bind Value.text? == some (String.ofList cs))),
    staticMethod "valueOf" [.object] fun args =>
      .textOf none (args.headD .null) fun text => .done (.text text)]

/-! ## Numbers -/

/-- The greater of two numbers; one that is not a number gives way. -/
def maxDouble (a b : Float) : Float :=
  if a.isNaN then b else if a < b then b else a

/-- The smaller of two numbers; one that is not a number gives way. -/
def minDouble (a b : Float) : Float :=
  if a.isNaN then b else if b < a then b else a

/-- The absolute value of an `int`; that of the least one is itself. -/
def absInt (n : Int32) : Int32 := if n < 0 then -n else n

/-- The absolute value of a `long`; that of the least one is itself. -/
def absLong (n : Int64) : Int64 := if n < 0 then -n else n

/-- Returns an `int`. -/
def returnInt (n : Int32) : Action := .done (.int n)

/-- Returns a `long`. -/
def returnLong (n : Int64) : Action := .done (.primitive (.long n))

/-- Returns a `double`. -/
def returnDouble (x : Float) : Action := .done (.primitive (.double x))

/-- The class of mathematical functions. -/
def mathClass : HostClass where
  name := "lang.Math"
  fields := [
    .constant "PI" (.primitive (.double 3.14159265358979323846)),
    .constant "E" (.primitive (.double 2.71828182845904523536))]
  methods := [
    staticMethod "max" [intType, intType] fun args =>
      returnInt (max (intArg args 0) (intArg args 1)).toInt32,
    staticMethod "max" [longType, longType] fun args =>
      returnLong (max (intArg args 0) (intArg args 1)),
    staticMethod "max" [doubleType, doubleType] fun args =>
      returnDouble (maxDouble (doubleArg args 0) (doubleArg args 1)),
    staticMethod "min" [intType, intType] fun args =>
      returnInt (min (intArg args 0) (intArg args 1)).toInt32,
    staticMethod "min" [longType, longType] fun args =>
      returnLong (min (intArg args 0) (intArg args 1)),
    staticMethod "min" [doubleType, doubleType] fun args =>
      returnDouble (minDouble (doubleArg args 0) (doubleArg args 1)),
    staticMethod "abs" [intType] fun args => returnInt (absInt (intArg args 0).toInt32),
    staticMethod "abs" [longType] fun args => returnLong (absLong (intArg args 0)),
    staticMethod "abs" [doubleType] fun args => returnDouble (doubleArg args 0).abs,
    staticMethod "pow" [doubleType, doubleType] fun args =>
      returnDouble (Float.pow (doubleArg args 0) (doubleArg args 1)),
    staticMethod "sqrt" [doubleType] fun args => returnDouble (doubleArg args 0).sqrt]

/-- Why a text is no `int`. -/
inductive NumberError where
  | empty
  | digit
  | tooLarge
  | tooSmall
  deriving DecidableEq, Repr

/-- The wording of a number error. -/
def NumberError.message : NumberError → String
  | .empty => "cannot parse integer from empty string"
  | .digit => "invalid digit found in string"
  | .tooLarge => "number too large to fit in target type"
  | .tooSmall => "number too small to fit in target type"

/-- Reads digits from the left up to a limit; whatever is wrong first counts. -/
def readDigits (limit : Nat) (overflow : NumberError) (value : Nat) :
    List Char → Except NumberError Nat
  | [] => .ok value
  | c :: cs =>
    if !c.isDigit then .error .digit
    else
      let value := 10 * value + Text.decimalDigit c
      if value > limit then .error overflow else readDigits limit overflow value cs

/-- The `int` that a text writes in decimal, with or without a sign. -/
def parseInt (text : String) : Except NumberError Int32 :=
  match text.toList with
  | [] => .error .empty
  | ['+'] | ['-'] => .error .digit
  | '-' :: cs => (readDigits (Nat.pow 2 31) .tooSmall 0 cs).map fun n => Int32.ofInt (-n)
  | '+' :: cs => (readDigits (Nat.pow 2 31 - 1) .tooLarge 0 cs).map Int32.ofNat
  | cs => (readDigits (Nat.pow 2 31 - 1) .tooLarge 0 cs).map Int32.ofNat

/-- The class of integers. -/
def integerClass : HostClass where
  name := "lang.Integer"
  fields := [
    .constant "MAX_VALUE" (.int 2147483647),
    .constant "MIN_VALUE" (.int (-2147483648))]
  methods := [
    staticMethod "parseInt" [.text] fun args => withText args 0 fun text =>
      match parseInt text with
      | .ok n => returnInt n
      | .error e => .raise e.message]

/-! ## Objects -/

/-- The class of plain objects. -/
def objectClass : HostClass where
  name := "lang.Object"
  constructors := [
    .makeConstructor "lang.Object" [] fun _ =>
      .create { className := "lang.Object", sort := "plain object" }]

/-- A text builder that holds a text. -/
def builder (text : String) : HostObject where
  className := "lang.StringBuilder"
  sort := "text builder"
  slots := { entries := [("text", .text text)] }
  description := .slot "text"

/-- Goes on with the receiver, which has to be a text builder, and its text. -/
def onBuilder (receiver : Option Value) (next : Value → String → Action) : Action :=
  let refuse := Action.raise "receiver is not a StringBuilder"
  match receiver with
  | none => refuse
  | some object => .inspect object fun found =>
    match found with
    | some o => if o.sort == "text builder" then next object o.text else refuse
    | none => refuse

/-- The class of text builders. -/
def builderClass : HostClass where
  name := "lang.StringBuilder"
  constructors := [
    .makeConstructor "lang.StringBuilder" [] fun _ => .create (builder ""),
    .makeConstructor "lang.StringBuilder" [.text] fun args =>
      withText args 0 fun text => .create (builder text)]
  methods := [
    method "append" [.object] fun receiver args => onBuilder receiver fun object text =>
      .textOf (some object) (args.headD .null) fun more =>
        .update object (builder (text ++ more)) (.done object),
    method "length" [] fun receiver _ => onBuilder receiver fun _ text =>
      returnInt (Int32.ofNat text.length),
    method "toString" [] fun receiver _ => onBuilder receiver fun _ text => .done (.text text)]

/-- The classes of the package in the order of registration. -/
def classes : List HostClass := [objectClass, textClass, mathClass, integerClass, builderClass]

end HostScript.Lang
