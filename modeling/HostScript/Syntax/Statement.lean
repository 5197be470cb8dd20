import HostScript.Syntax.Expression

/-!
# Reading statements

A statement that starts with a name may declare a method or variables, or be an expression; the
reader tries a declaration first and goes back if the tokens do not spell one.
-/

set_option autoImplicit false

namespace HostScript

namespace Read

/-- A parameter: a type and a name, or a name alone. Gives nothing if the tokens do not fit. -/
def param? (budget : Nat) : Read (Option Param) := do
  let first ← peek
  match ← typeName? budget with
  | none => return none
  | some type =>
    if (← peek).kind.isIdentifier then
      let name ← advance
      return some ⟨name.lexeme, some type, name.span⟩
    else if type.dims = 0 && !type.name.contains '.' && (Kind.ofName? type.name).isNone then
      return some ⟨type.name, none, first.span⟩
    else
      return none

/-- Parameters up to the closing parenthesis. -/
def paramTail? (depth : Nat) : Nat → Read (Option (List Param))
  | 0 => return none
  | budget + 1 => do
    match ← param? depth with
    | none => return none
    | some param =>
      if ← accept .rparen then
        return some [param]
      else if ← accept .comma then
        return (← paramTail? depth budget).map (param :: ·)
      else
        return none

/-- A parameter list in parentheses. Gives nothing if the tokens do not fit; the cursor then stands
at the token that does not. -/
def paramList? (budget : Nat) : Read (Option (List Param)) := do
  if ← accept .lparen then
    if ← accept .rparen then
      return some []
    else
      paramTail? budget budget
  else
    return none

/-- A declared variable with its first value. An array may be given by its items in braces. -/
def declarator (budget : Nat) (type : TypeName) : Read Declarator := do
  let name ← expectIdentifier .variableName
  if ← accept .assign then
    let inBraces ← if type.dims = 0 then pure false else nextIs .lbrace
    let value ←
      if inBraces then arrayInit budget (goal budget) ⟨type.name, type.dims - 1⟩
      else expression budget
    return ⟨name.lexeme, some value, name.span.to value.span⟩
  else
    return ⟨name.lexeme, none, name.span⟩

/-- The variables of a declaration whose type was read from `start` on. -/
def variableDeclaration (budget : Nat) (start : Span) (type : TypeName) : Read Stmt := do
  let declarators ← separated (declarator budget type) budget
  let stop := (declarators.getLast?.map Declarator.span).getD start
  return .declaration (start.to stop) type declarators

/-- Statements up to the end of a block. -/
def blockItems (again : Read Stmt) : Nat → Read (List Stmt)
  | 0 => fail .nesting
  | budget + 1 => do
    let next := (← peek).kind
    if next.isMark .rbrace || next.isEof then
      return []
    else
      let first ← again
      return first :: (← blockItems again budget)

/-- A block in braces and its span. -/
def block (budget : Nat) (again : Read Stmt) : Read (List Stmt × Span) := do
  let opening ← expect .lbrace .blockStart
  let items ← blockItems again budget
  let closing ← expect .rbrace .blockEnd
  return (items, opening.span.to closing.span)

/-- The body of a method whose head has been read. -/
def methodBody (budget : Nat) (again : Read Stmt) (start : Span) (name : String)
    (params : List Param) (returns : Option TypeName) : Read Stmt := do
  let (body, span) ← block budget again
  return .method (start.to span) name params returns body

/-- A declaration of a method or of variables, or nothing with the cursor where it was if the tokens
spell an expression. -/
def declaration? (budget : Nat) (again : Read Stmt) : Read (Option Stmt) := do
  let place ← get
  let start := (← peek).span
  if ← identifierThen .lparen then
    let name ← advance
    match ← paramList? budget with
    | some params =>
      if ← nextIs .lbrace then
        return some (← methodBody budget again start name.lexeme params none)
      else
        rewind place
        return none
    | none =>
      rewind place
      return none
  else
    match ← typeName? budget with
    | none =>
      rewind place
      return none
    | some type =>
      if (← peek).kind.isIdentifier then
        if (← peekSecond).kind.isMark .lparen then
          let name ← advance
          match ← paramList? budget with
          | some params =>
            return some (← methodBody budget again start name.lexeme params (some type))
          | none => fail .parameterList
        else
          let declared ← variableDeclaration budget start type
          let close ← expect .semicolon .semicolonAfterDeclaration
          match declared with
          | .declaration span type declarators =>
            return some (.declaration (span.to close.span) type declarators)
          | other => return some other
      else
        rewind place
        return none

/-- An expression as a statement. -/
def expressionStatement (budget : Nat) : Read Stmt := do
  let value ← expression budget
  let close ← expect .semicolon .semicolonAfterExpression
  return .expr (value.span.to close.span) value

/-- A condition in parentheses. -/
def condition (budget : Nat) (cause : SyntaxCause) : Read Expr := do
  let _ ← expect .lparen cause
  let value ← expression budget
  let _ ← expect .rparen .parenAfterCondition
  return value

/-- A choice; `else` belongs to the nearest `if`. -/
def ifStatement (budget : Nat) (again : Read Stmt) : Read Stmt := do
  let start := (← advance).span
  let test ← condition budget .parenAfterIf
  let yes ← again
  if ← acceptKeyword .elseWord then
    let no ← again
    return .ifElse (start.to no.span) test yes (some no)
  else
    return .ifElse (start.to yes.span) test yes none

/-- A loop with its condition first. -/
def whileStatement (budget : Nat) (again : Read Stmt) : Read Stmt := do
  let start := (← advance).span
  let test ← condition budget .parenAfterWhile
  let body ← again
  return .whileLoop (start.to body.span) test body

/-- A loop with its condition last. -/
def doStatement (budget : Nat) (again : Read Stmt) : Read Stmt := do
  let start := (← advance).span
  let body ← again
  if ← acceptKeyword .whileWord then
    let test ← condition budget .parenAfterWhile
    let close ← expect .semicolon .semicolonAfterLoop
    return .doWhile (start.to close.span) body test
  else
    fail .whileAfterBody

/-- The head of a loop over the items of a value: an optional type, a name and a colon. Gives
nothing, with the cursor where it was, if the tokens do not fit. -/
def forEachHead? (budget : Nat) : Read (Option (Option TypeName × String)) := do
  let place ← get
  if ← identifierThen .colon then
    let name ← advance
    let _ ← advance
    return some (none, name.lexeme)
  else
    match ← typeName? budget with
    | none =>
      rewind place
      return none
    | some type =>
      if ← identifierThen .colon then
        let name ← advance
        let _ ← advance
        return some (some type, name.lexeme)
      else
        rewind place
        return none

/-- The first clause of a counting loop: variables, expressions, or nothing. -/
def forInit (budget : Nat) : Read (List Stmt) := do
  if ← nextIs .semicolon then
    return []
  else
    let place ← get
    let start := (← peek).span
    let type? ← typeName? budget
    let declares ← if type?.isSome then pure (← peek).kind.isIdentifier else pure false
    match type?, declares with
    | some type, true => return [← variableDeclaration budget start type]
    | _, _ =>
      rewind place
      let values ← separated (expression budget) budget
      return values.map fun value => .expr value.span value

/-- A counting loop, or a loop over the items of a value. -/
def forStatement (budget : Nat) (again : Read Stmt) : Read Stmt := do
  let start := (← advance).span
  let _ ← expect .lparen .parenAfterFor
  match ← forEachHead? budget with
  | some (type, binding) =>
    let iterable ← expression budget
    let _ ← expect .rparen .parenAfterIterable
    let body ← again
    return .forEach (start.to body.span) type binding iterable body
  | none =>
    let init ← forInit budget
    let _ ← expect .semicolon .semicolonAfterInitializer
    let test ←
      if ← nextIs .semicolon then pure none
      else pure (some (← expression budget))
    let _ ← expect .semicolon .semicolonAfterForCondition
    let update ←
      if ← nextIs .rparen then pure []
      else separated (expression budget) budget
    let _ ← expect .rparen .parenAfterClauses
    let body ← again
    return .forLoop (start.to body.span) init test update body

/-- The end of a method with its value. -/
def returnStatement (budget : Nat) : Read Stmt := do
  let start := (← advance).span
  let value ←
    if ← nextIs .semicolon then pure none
    else pure (some (← expression budget))
  let close ← expect .semicolon .semicolonAfterReturn
  return .returnValue (start.to close.span) value

/-- The segments of an imported name after its first one, and whether it ends in a star. -/
def importTail : Nat → String → Read (String × Bool)
  | 0, path => pure (path, false)
  | budget + 1, path => do
    if ← accept .dot then
      if ← accept .star then
        return (path, true)
      else
        let segment ← expectIdentifier .nameSegment
        importTail budget s!"{path}.{segment.lexeme}"
    else
      return (path, false)

/-- An import of a class or of a package. -/
def importStatement (budget : Nat) : Read Stmt := do
  let start := (← advance).span
  let first ← expectIdentifier .importName
  let (path, wildcard) ← importTail budget first.lexeme
  let close ← expect .semicolon .semicolonAfterImport
  return .importName (start.to close.span) path wildcard

/-- One statement, whose inner statements are read by `again`. -/
def statementWith (budget : Nat) (again : Read Stmt) : Read Stmt := do
  let next := (← peek).kind
  match next with
  | .keyword .ifWord => ifStatement budget again
  | .keyword .whileWord => whileStatement budget again
  | .keyword .doWord => doStatement budget again
  | .keyword .forWord => forStatement budget again
  | .keyword .returnWord => returnStatement budget
  | .keyword .breakWord =>
    let start := (← advance).span
    let close ← expect .semicolon .semicolonAfterBreak
    return .breakLoop (start.to close.span)
  | .keyword .continueWord =>
    let start := (← advance).span
    let close ← expect .semicolon .semicolonAfterContinue
    return .continueLoop (start.to close.span)
  | .keyword .importWord => importStatement budget
  | .mark .lbrace =>
    let (body, span) ← block budget again
    return .block span body
  | .mark .semicolon =>
    return .empty (← advance).span
  | next =>
    if next.isTypeWord || next.isIdentifier then
      match ← declaration? budget again with
      | some declared => return declared
      | none => expressionStatement budget
    else
      expressionStatement budget

/-- A statement, with a budget greater than the number of tokens left. -/
def statement : Nat → Read Stmt
  | 0 => fail .nesting
  | budget + 1 => statementWith (budget + 1) (statement budget)

end Read

end HostScript
