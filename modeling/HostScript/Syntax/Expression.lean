import HostScript.Syntax
import HostScript.Syntax.Cursor

/-!
# Reading expressions

The grammar of expressions, loosest first: assignment (to the right), the conditional operator (to
the right), nine levels of binary operators (to the left), unary operators and casts, and primary
expressions followed by member accesses, calls, indices and at most one step.

Reading recurs only after it has taken a token, so a budget of one more than the number of tokens
left is never used up.
-/

set_option autoImplicit false

namespace HostScript

namespace Read

/-- A type name: a primitive type or a dotted name, with its dimensions. Gives nothing, and may have
taken nothing, if no type name comes next. -/
def typeName? (budget : Nat) : Read (Option TypeName) := do
  let kind := (← peek).kind
  if kind.isTypeWord then
    let word ← advance
    return some ⟨word.lexeme, ← dimensions budget 0⟩
  else if kind.isIdentifier then
    let first ← advance
    let name ← dottedTail budget first.lexeme
    return some ⟨name, ← dimensions budget 0⟩
  else
    return none

end Read

/-- The binary operator that a mark stands for. -/
def BinaryOp.ofMark? : Mark → Option BinaryOp
  | .doublePipe => some .or
  | .doubleAmpersand => some .and
  | .pipe => some .bitOr
  | .caret => some .bitXor
  | .ampersand => some .bitAnd
  | .equalEqual => some .equal
  | .bangEqual => some .notEqual
  | .less => some .less
  | .lessEqual => some .lessEqual
  | .greater => some .greater
  | .greaterEqual => some .greaterEqual
  | .plus => some .add
  | .minus => some .sub
  | .star => some .mul
  | .slash => some .div
  | .percent => some .mod
  | _ => none

/-- The operator that an assignment mark combines with: none for plain assignment. -/
def Token.Kind.assignment? : Token.Kind → Option (Option BinaryOp)
  | .mark .assign => some none
  | .mark .plusAssign => some (some .add)
  | .mark .minusAssign => some (some .sub)
  | .mark .starAssign => some (some .mul)
  | .mark .slashAssign => some (some .div)
  | .mark .percentAssign => some (some .mod)
  | _ => none

/-- The binary operator of a given level that a token stands for. -/
def Token.Kind.binaryAt? (level : Nat) : Token.Kind → Option BinaryOp
  | .mark m => (BinaryOp.ofMark? m).filter (·.level = level)
  | _ => none

/-- The unary operator that a token stands for. -/
def Token.Kind.unary? : Token.Kind → Option UnaryOp
  | .mark .minus => some .negate
  | .mark .plus => some .plus
  | .mark .bang => some .not
  | _ => none

/-- The step that a token stands for. -/
def Token.Kind.step? : Token.Kind → Option Step
  | .mark .plusPlus => some .increment
  | .mark .minusMinus => some .decrement
  | _ => none

/-- The literal that a token stands for. -/
def Token.Kind.literal? : Token.Kind → Option Literal
  | .number n => some (.number n)
  | .text s => some (.text s)
  | .char c => some (.char c)
  | .keyword .trueWord => some (.bool true)
  | .keyword .falseWord => some (.bool false)
  | .keyword .nullWord => some .null
  | .keyword .void => some .void
  | _ => none

/-- Whether a token after a type in parentheses makes them a cast. A sign does so only after a
primitive type. -/
def Token.Kind.startsCastOperand (primitive : Bool) : Token.Kind → Bool
  | .identifier | .number _ | .text _ | .char _ => true
  | .mark .lparen | .mark .bang => true
  | .mark .minus | .mark .plus => primitive
  | .keyword .thisWord | .keyword .superWord | .keyword .newWord => true
  | .keyword .trueWord | .keyword .falseWord | .keyword .nullWord => true
  | _ => false

/-- What the reading of an expression may recur to. -/
inductive Goal where
  | expression
  | conditional
  | unary
  deriving DecidableEq

namespace Read

/-- Arguments in parentheses, and the span of the closing one. -/
def arguments (budget : Nat) (again : Goal → Read Expr) : Read (List Expr × Span) := do
  let _ ← expect .lparen .parenBeforeArguments
  let args ←
    if ← nextIs .rparen then pure []
    else separated (again .expression) budget
  let close ← expect .rparen .parenAfterArguments
  return (args, close.span)

/-- The items of an array initializer up to its closing brace; a comma may follow the last one. -/
def arrayItems (again : Goal → Read Expr) : Nat → Read (List Expr)
  | 0 => fail .nesting
  | budget + 1 => do
    if ← nextIs .rbrace then
      return []
    else
      let first ← again .expression
      if ← accept .comma then
        return first :: (← arrayItems again budget)
      else
        return [first]

/-- An array initializer in braces. -/
def arrayInit (budget : Nat) (again : Goal → Read Expr) (element : TypeName) : Read Expr := do
  let opening ← expect .lbrace .arrayStart
  let items ← arrayItems again budget
  let closing ← expect .rbrace .arrayEnd
  return .arrayInit (opening.span.to closing.span) element items

/-- The segments of a class name after `new`; every point needs a segment. -/
def classSegments : Nat → String → Read String
  | 0, name => pure name
  | budget + 1, name => do
    if ← accept .dot then
      let segment ← expectIdentifier .nameSegment
      classSegments budget s!"{name}.{segment.lexeme}"
    else
      return name

/-- The class or element type after `new`. -/
def newType (budget : Nat) : Read TypeName := do
  if (← peek).kind.isTypeWord then
    return ⟨(← advance).lexeme, 0⟩
  else
    let first ← expectIdentifier .typeAfterNew
    return ⟨← classSegments budget first.lexeme, 0⟩

/-- An allocation: an object, an array of a given length, or an array of given items. -/
def allocation (budget : Nat) (again : Goal → Read Expr) : Read Expr := do
  let start := (← advance).span
  let type ← newType budget
  if ← accept .lbracket then
    if ← accept .rbracket then
      match ← arrayInit budget again type with
      | .arrayInit span element items => return .arrayInit (start.to span) element items
      | other => return other
    else
      let length ← again .expression
      let close ← expect .rbracket .bracketAfterLength
      return .newArray (start.to close.span) type length
  else
    let (args, close) ← arguments budget again
    return .new (start.to close) type args

/-- A literal, a name, a call, `this`, `super`, an allocation or a group. -/
def primary (budget : Nat) (again : Goal → Read Expr) : Read Expr := do
  let token ← peek
  match token.kind.literal? with
  | some value =>
    let _ ← advance
    return .literal token.span value
  | none =>
    match token.kind with
    | .identifier =>
      let _ ← advance
      if ← nextIs .lparen then
        let (args, close) ← arguments budget again
        return .call (token.span.to close) token.lexeme args
      else
        return .name token.span token.lexeme
    | .keyword .thisWord =>
      let _ ← advance
      return .this token.span
    | .keyword .superWord =>
      let _ ← advance
      return .super token.span
    | .keyword .newWord => allocation budget again
    | .mark .lparen =>
      let opening ← advance
      let inner ← again .expression
      let close ← expect .rparen .parenAfterGroup
      return .group (opening.span.to close.span) inner
    | _ => fail .expression

/-- Member accesses, method calls and indices after an expression. -/
def accesses (depth : Nat) (again : Goal → Read Expr) : Nat → Expr → Read Expr
  | 0, _ => fail .nesting
  | budget + 1, target => do
    if ← accept .dot then
      let member ← expectIdentifier .memberName
      if ← nextIs .lparen then
        let (args, close) ← arguments depth again
        accesses depth again budget
          (.methodCall (target.span.to close) target member.lexeme args)
      else
        accesses depth again budget (.field (target.span.to member.span) target member.lexeme)
    else if ← accept .lbracket then
      let index ← again .expression
      let close ← expect .rbracket .bracketAfterIndex
      accesses depth again budget (.index (target.span.to close.span) target index)
    else
      return target

/-- A primary expression with its accesses and at most one step after it. -/
def stepped (budget : Nat) (again : Goal → Read Expr) : Read Expr := do
  let first ← primary budget again
  let target ← accesses budget again budget first
  match (← peek).kind.step? with
  | some step =>
    let mark ← advance
    return .postStep (target.span.to mark.span) step target
  | none => return target

/-- A cast, or nothing with the cursor where it was if the parentheses hold an expression. -/
def cast? (budget : Nat) (again : Goal → Read Expr) : Read (Option Expr) := do
  let place ← get
  let opening ← advance
  let primitive := (← peek).kind.isTypeWord
  match ← typeName? budget with
  | none =>
    rewind place
    return none
  | some type =>
    if ← accept .rparen then
      if (← peek).kind.startsCastOperand primitive then
        let operand ← again .unary
        return some (.cast (opening.span.to operand.span) type operand)
      else
        rewind place
        return none
    else
      rewind place
      return none

/-- A unary operator or step before its operand, a cast, or an expression with accesses. -/
def unary (budget : Nat) (again : Goal → Read Expr) : Read Expr := do
  let next := (← peek).kind
  match next.unary? with
  | some op =>
    let mark ← advance
    let operand ← again .unary
    return .unary (mark.span.to operand.span) op operand
  | none =>
    match next.step? with
    | some step =>
      let mark ← advance
      let target ← again .unary
      return .preStep (mark.span.to target.span) step target
    | none =>
      if next.isMark .lparen then
        match ← cast? budget again with
        | some e => return e
        | none => stepped budget again
      else
        stepped budget again

/-- Operators of one level with their right operands, gathered to the left. -/
def binaryTail (level : Nat) (operand : Read Expr) : Nat → Expr → Read Expr
  | 0, _ => fail .nesting
  | budget + 1, left => do
    match (← peek).kind.binaryAt? level with
    | some op =>
      let _ ← advance
      let right ← operand
      binaryTail level operand budget (.binary (left.span.to right.span) op left right)
    | none => return left

/-- The tightest `count` levels of binary operators. -/
def binary (budget : Nat) (again : Goal → Read Expr) : Nat → Read Expr
  | 0 => unary budget again
  | count + 1 => do
    let left ← binary budget again count
    binaryTail (BinaryOp.levels - (count + 1)) (binary budget again count) budget left

/-- A conditional expression, or a binary one. -/
def conditional (budget : Nat) (again : Goal → Read Expr) : Read Expr := do
  let condition ← binary budget again BinaryOp.levels
  if ← accept .question then
    let yes ← again .expression
    let _ ← expect .colon .colonInConditional
    let no ← again .conditional
    return .conditional (condition.span.to no.span) condition yes no
  else
    return condition

/-- An assignment, or a conditional expression. -/
def assignment (budget : Nat) (again : Goal → Read Expr) : Read Expr := do
  let target ← conditional budget again
  match (← peek).kind.assignment? with
  | some op =>
    let _ ← advance
    let value ← again .expression
    return .assign (target.span.to value.span) target op value
  | none => return target

/-- Reads what a goal asks for. -/
def goal : Nat → Goal → Read Expr
  | 0, _ => fail .nesting
  | budget + 1, .expression => assignment (budget + 1) (goal budget)
  | budget + 1, .conditional => conditional (budget + 1) (goal budget)
  | budget + 1, .unary => unary (budget + 1) (goal budget)

/-- An expression, with a budget greater than the number of tokens left. -/
def expression (budget : Nat) : Read Expr :=
  goal budget .expression

end Read

end HostScript
