import HostScript.Operator
import HostScript.Floating.Decimal

/-!
# Primitive values

Scalars of the script language and the two sentinels `void` and `null`. Integers are
two's-complement words: arithmetic wraps around, division truncates toward zero. Binary operators
first bring both operands to a common kind. There are three conversions: widening, which never fails
for a wider kind; assignment, which also narrows an integer that fits; and casting between any two
numeric kinds.
-/

set_option autoImplicit false

namespace HostScript

/-- Kinds of primitive values. -/
inductive Kind where
  | boolean | char | byte | short | int | long | float | double | void | null
  deriving DecidableEq, Repr

namespace Kind

/-- The word for a kind in scripts and messages. -/
def name : Kind → String
  | .boolean => "boolean"
  | .char => "char"
  | .byte => "byte"
  | .short => "short"
  | .int => "int"
  | .long => "long"
  | .float => "float"
  | .double => "double"
  | .void => "void"
  | .null => "null"

/-- The kind that a type name denotes. The null value has no type name. -/
def ofName? : String → Option Kind
  | "boolean" => some .boolean
  | "char" => some .char
  | "byte" => some .byte
  | "short" => some .short
  | "int" => some .int
  | "long" => some .long
  | "float" => some .float
  | "double" => some .double
  | "void" => some .void
  | _ => none

/-- Kinds whose values are whole numbers; characters count as their code points. -/
def isIntegral : Kind → Bool
  | .char | .byte | .short | .int | .long => true
  | _ => false

/-- Kinds whose values are numbers. -/
def isNumeric : Kind → Bool
  | .float | .double => true
  | k => k.isIntegral

/-- Whether every value of the first kind has a counterpart in the second; a kind is as wide as
itself. -/
def widensTo : Kind → Kind → Bool
  | .byte, .short | .byte, .int | .byte, .long | .byte, .float | .byte, .double => true
  | .short, .int | .short, .long | .short, .float | .short, .double => true
  | .char, .int | .char, .long | .char, .float | .char, .double => true
  | .int, .long | .int, .float | .int, .double => true
  | .long, .float | .long, .double => true
  | .float, .double => true
  | a, b => a == b

/-- The kind in which two numeric operands meet. -/
def promote : Kind → Kind → Kind
  | .double, _ | _, .double => .double
  | .float, _ | _, .float => .float
  | .long, _ | _, .long => .long
  | _, _ => .int

end Kind

/-- A scalar, or one of the sentinels `void` and `null`. -/
inductive Primitive where
  | bool (b : Bool)
  | char (c : Char)
  | byte (n : Int8)
  | short (n : Int16)
  | int (n : Int32)
  | long (n : Int64)
  | float (x : Float32)
  | double (x : Float)
  | void
  | null
  deriving BEq, Inhabited

namespace Primitive

/-- The kind of a value. -/
def kind : Primitive → Kind
  | .bool _ => .boolean
  | .char _ => .char
  | .byte _ => .byte
  | .short _ => .short
  | .int _ => .int
  | .long _ => .long
  | .float _ => .float
  | .double _ => .double
  | .void => .void
  | .null => .null

/-- The value that a fresh slot of a kind holds. -/
def zero : Kind → Primitive
  | .boolean => .bool false
  | .char => .char (Char.ofNat 0)
  | .byte => .byte 0
  | .short => .short 0
  | .int => .int 0
  | .long => .long 0
  | .float => .float 0.0
  | .double => .double 0.0
  | .void => .void
  | .null => .null

/-- Whether a value is the null sentinel. -/
def isNull : Primitive → Bool
  | .null => true
  | _ => false

/-- Whether a value is the void sentinel. -/
def isVoid : Primitive → Bool
  | .void => true
  | _ => false

/-- The truth value of a boolean. -/
def toBool? : Primitive → Option Bool
  | .bool b => some b
  | _ => none

/-- The whole number that an integral value is. -/
def toInt64? : Primitive → Option Int64
  | .char c => some (Int64.ofNat c.toNat)
  | .byte n => some n.toInt64
  | .short n => some n.toInt64
  | .int n => some n.toInt64
  | .long n => some n
  | _ => none

/-- The double nearest to a numeric value. -/
def toDouble? : Primitive → Option Float
  | .float x => some x.toFloat
  | .double x => some x
  | p => p.toInt64?.map Int64.toFloat

/-- The text of a value. -/
def text : Primitive → String
  | .bool b => if b then "true" else "false"
  | .char c => String.ofList [c]
  | .byte n => toString n.toInt
  | .short n => toString n.toInt
  | .int n => toString n.toInt
  | .long n => toString n.toInt
  | .float x => Floating.doubleText x.toFloat
  | .double x => Floating.doubleText x
  | .void => "void"
  | .null => "null"

/-- Why an operation on primitive values fails. -/
inductive Error where
  | cast (source target : Kind)
  | assign (value : Primitive) (target : Kind)
  | operands (op : BinaryOp) (left right : Kind)
  | operand (op : UnaryOp) (kind : Kind)
  | step (kind : Kind)
  | divisionByZero

/-- The wording of a failed operation. -/
def Error.message : Error → String
  | .cast source target => s!"cannot cast {source.name} to {target.name}"
  | .assign value target => s!"cannot assign {value.kind.name} value {value.text} to {target.name}"
  | .operands op left right =>
    s!"bad operand types for `{op.symbol}`: {left.name} and {right.name}"
  | .operand .not kind => s!"bad operand type {kind.name} for `!`"
  | .operand op kind => s!"bad operand type {kind.name} for unary `{op.symbol}`"
  | .step kind => s!"bad operand type {kind.name} for increment"
  | .divisionByZero => "/ by zero"

/-- The character whose code is the low 16 bits of a number; codes that no character has give the
replacement character. -/
def charOfInt64 (n : Int64) : Char :=
  let code := n.toUInt64.toUInt16.toNat
  if code.isValidChar then Char.ofNat code else Char.ofNat 0xFFFD

/-- A whole number in an integral or floating kind, high bits dropped where they do not fit. -/
def ofInt64? (n : Int64) : Kind → Option Primitive
  | .char => some (.char (charOfInt64 n))
  | .byte => some (.byte n.toInt8)
  | .short => some (.short n.toInt16)
  | .int => some (.int n.toInt32)
  | .long => some (.long n)
  | .float => some (.float n.toFloat32)
  | .double => some (.double n.toFloat)
  | _ => none

/-- A double in another numeric kind; a whole number is cut toward zero and kept in range. -/
def ofDouble? (x : Float) : Kind → Option Primitive
  | .char => some (.char (charOfInt64 x.toInt64))
  | .byte => some (.byte x.toInt64.toInt8)
  | .short => some (.short x.toInt64.toInt16)
  | .int => some (.int x.toInt32)
  | .long => some (.long x.toInt64)
  | .float => some (.float x.toFloat32)
  | .double => some (.double x)
  | _ => none

/-- The value in another numeric kind, or unchanged in its own kind. -/
def convert? (p : Primitive) (target : Kind) : Option Primitive :=
  if p.kind = target then some p
  else match p with
    | .float x => ofDouble? x.toFloat target
    | .double x => ofDouble? x target
    | p => p.toInt64?.bind (ofInt64? · target)

/-- The value in a kind at least as wide as its own. -/
def widen? (p : Primitive) (target : Kind) : Option Primitive :=
  if p.kind.widensTo target then p.convert? target else none

/-- Casting: any numeric kind to any other, and every kind to itself. -/
def cast (p : Primitive) (target : Kind) : Except Error Primitive :=
  if p.kind = target then .ok p
  else if p.kind.isNumeric && target.isNumeric then
    match p.convert? target with
    | some q => .ok q
    | none => .error (.cast p.kind target)
  else .error (.cast p.kind target)

/-- Whether a whole number lies in the range of one of the kinds that assignment narrows to. -/
def fits (n : Int64) : Kind → Bool
  | .byte => -128 ≤ n.toInt && n.toInt ≤ 127
  | .short => -32768 ≤ n.toInt && n.toInt ≤ 32767
  | .char => 0 ≤ n.toInt && n.toInt ≤ 65535
  | _ => false

/-- The value narrowed for an assignment: an integer of at most 32 bits that fits. -/
def narrow? (p : Primitive) (target : Kind) : Option Primitive :=
  match p with
  | .long _ => none
  | p =>
    match p.toInt64? with
    | some n => if fits n target then p.convert? target else none
    | none => none

/-- Assignment conversion: widening, or narrowing of an integer that fits. -/
def assign (p : Primitive) (target : Kind) : Except Error Primitive :=
  match p.widen? target with
  | some q => .ok q
  | none =>
    match p.narrow? target with
    | some q => .ok q
    | none => .error (.assign p target)

/-- How two doubles compare; no number compares with nothing. -/
def compareDouble (x y : Float) : Option Ordering :=
  if x < y then some .lt else if x == y then some .eq else if y < x then some .gt else none

/-- How two singles compare; no number compares with nothing. -/
def compareSingle (x y : Float32) : Option Ordering :=
  if x < y then some .lt else if x == y then some .eq else if y < x then some .gt else none

/-- How two operands of one promoted kind compare. -/
def compare? : Primitive → Primitive → Option Ordering
  | .int x, .int y => some (compare x.toInt y.toInt)
  | .long x, .long y => some (compare x.toInt y.toInt)
  | .float x, .float y => compareSingle x y
  | .double x, .double y => compareDouble x y
  | _, _ => none

/-- The answer of a comparison operator; operands that do not compare are only unequal. -/
def relation (op : BinaryOp) (order : Option Ordering) : Option Bool :=
  match op with
  | .equal => some (order == some .eq)
  | .notEqual => some (order != some .eq)
  | .less => some (order == some .lt)
  | .lessEqual => some (order == some .lt || order == some .eq)
  | .greater => some (order == some .gt)
  | .greaterEqual => some (order == some .gt || order == some .eq)
  | _ => none

/-- Arithmetic and bitwise operators on 32-bit words; `none` for the other operators. -/
def arithInt (op : BinaryOp) (x y : Int32) : Option (Except Error Int32) :=
  match op with
  | .add => some (.ok (x + y))
  | .sub => some (.ok (x - y))
  | .mul => some (.ok (x * y))
  | .div => some (if y = 0 then .error .divisionByZero else .ok (x / y))
  | .mod => some (if y = 0 then .error .divisionByZero else .ok (x % y))
  | .bitAnd => some (.ok (x.toInt64 &&& y.toInt64).toInt32)
  | .bitOr => some (.ok (x.toInt64 ||| y.toInt64).toInt32)
  | .bitXor => some (.ok (x.toInt64 ^^^ y.toInt64).toInt32)
  | _ => none

/-- Arithmetic and bitwise operators on 64-bit words; `none` for the other operators. -/
def arithLong (op : BinaryOp) (x y : Int64) : Option (Except Error Int64) :=
  match op with
  | .add => some (.ok (x + y))
  | .sub => some (.ok (x - y))
  | .mul => some (.ok (x * y))
  | .div => some (if y = 0 then .error .divisionByZero else .ok (x / y))
  | .mod => some (if y = 0 then .error .divisionByZero else .ok (x % y))
  | .bitAnd => some (.ok (x &&& y))
  | .bitOr => some (.ok (x ||| y))
  | .bitXor => some (.ok (x ^^^ y))
  | _ => none

/-- Arithmetic operators on singles; `none` for the other operators. -/
def arithSingle (op : BinaryOp) (x y : Float32) : Option Float32 :=
  match op with
  | .add => some (x + y)
  | .sub => some (x - y)
  | .mul => some (x * y)
  | .div => some (x / y)
  | .mod => some (Floating.remSingle x y)
  | _ => none

/-- Arithmetic operators on doubles; `none` for the other operators. -/
def arithDouble (op : BinaryOp) (x y : Float) : Option Float :=
  match op with
  | .add => some (x + y)
  | .sub => some (x - y)
  | .mul => some (x * y)
  | .div => some (x / y)
  | .mod => some (Floating.remDouble x y)
  | _ => none

/-- An operator that is no comparison, on two operands of one promoted kind. -/
def arith? (op : BinaryOp) : Primitive → Primitive → Option (Except Error Primitive)
  | .int x, .int y => (arithInt op x y).map (·.map Primitive.int)
  | .long x, .long y => (arithLong op x y).map (·.map Primitive.long)
  | .float x, .float y => (arithSingle op x y).map fun z => .ok (.float z)
  | .double x, .double y => (arithDouble op x y).map fun z => .ok (.double z)
  | _, _ => none

/-- Operators on two booleans; `none` for the others. -/
def logic? (op : BinaryOp) (a b : Bool) : Option Bool :=
  match op with
  | .equal => some (a == b)
  | .notEqual => some (a != b)
  | .and | .bitAnd => some (a && b)
  | .or | .bitOr => some (a || b)
  | .bitXor => some (a ^^ b)
  | _ => none

/-- An operator on two numeric operands, which first meet in a common kind. -/
def numeric (op : BinaryOp) (p q : Primitive) : Except Error Primitive :=
  let common := p.kind.promote q.kind
  let mismatch : Error := .operands op p.kind q.kind
  match p.convert? common, q.convert? common with
  | some a, some b =>
    match relation op (compare? a b) with
    | some answer => .ok (.bool answer)
    | none => (arith? op a b).getD (.error mismatch)
  | _, _ => .error mismatch

/-- A binary operator on two values that are both known. -/
def binary (op : BinaryOp) (p q : Primitive) : Except Error Primitive :=
  let mismatch : Error := .operands op p.kind q.kind
  match p, q with
  | .bool a, .bool b =>
    match logic? op a b with
    | some answer => .ok (.bool answer)
    | none => .error mismatch
  | p, q =>
    if p.kind.isNumeric && q.kind.isNumeric then numeric op p q
    else match op with
      | .equal => .ok (.bool (p == q))
      | .notEqual => .ok (.bool (p != q))
      | _ => .error mismatch

/-- The negative of a number, in its promoted kind. -/
def negate (p : Primitive) : Except Error Primitive :=
  if p.kind.isNumeric then
    match p.convert? (p.kind.promote .int) with
    | some (.int n) => .ok (.int (-n))
    | some (.long n) => .ok (.long (-n))
    | some (.float x) => .ok (.float (-x))
    | some (.double x) => .ok (.double (-x))
    | _ => .error (.operand .negate p.kind)
  else .error (.operand .negate p.kind)

/-- A number in its promoted kind. -/
def unaryPlus (p : Primitive) : Except Error Primitive :=
  if p.kind.isNumeric then
    match p.convert? (p.kind.promote .int) with
    | some q => .ok q
    | none => .error (.operand .plus p.kind)
  else .error (.operand .plus p.kind)

/-- The other truth value. -/
def not : Primitive → Except Error Primitive
  | .bool b => .ok (.bool (!b))
  | p => .error (.operand .not p.kind)

/-- A unary operator. -/
def unary (op : UnaryOp) (p : Primitive) : Except Error Primitive :=
  match op with
  | .negate => p.negate
  | .plus => p.unaryPlus
  | .not => p.not

/-- The value after adding a small number, kept in its own kind. -/
def step (p : Primitive) (delta : Int32) : Except Error Primitive :=
  match binary .add p (.int delta) with
  | .error e => .error e
  | .ok q =>
    match q.cast p.kind with
    | .ok r => .ok r
    | .error _ => .error (.step p.kind)

end Primitive

end HostScript
