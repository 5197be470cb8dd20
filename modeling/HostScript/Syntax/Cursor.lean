import HostScript.Token.Scan

/-!
# Reading tokens

A reader takes tokens from a cursor and ends with a result or stuck at a token that the grammar does
not allow. Readers look at most one token past the next one. The cursor remembers whether the place
where the tokens end was looked at: if a broken token stands there, it is to blame for a failure.
-/

set_option autoImplicit false

namespace HostScript

/-- A place in a stream of tokens. -/
structure Cursor where
  /-- The tokens not read yet. -/
  rest : List Token
  /-- How the tokens end. -/
  ending : Token.Ending
  /-- The offset just past the last token read. -/
  consumed : Nat := 0
  /-- Whether the end of the tokens was looked at. -/
  met : Bool := false

/-- A token that the grammar does not allow, and what it asks for instead. -/
structure Stuck where
  cause : SyntaxCause
  token : Token

/-- Readers of tokens. -/
abbrev Read := EStateM Stuck Cursor

/-- How reading ended, and the cursor it left. -/
abbrev Read.Result := EStateM.Result Stuck Cursor

namespace Read

/-- The next token. -/
def peek : Read Token := fun c =>
  match c.rest with
  | t :: _ => .ok t c
  | [] => .ok c.ending.token { c with met := true }

/-- The token after the next one. -/
def peekSecond : Read Token := fun c =>
  match c.rest with
  | _ :: t :: _ => .ok t c
  | _ => .ok c.ending.token { c with met := true }

/-- Takes the next token; the end of the tokens stays where it is. -/
def advance : Read Token := fun c =>
  match c.rest with
  | t :: rest => .ok t { c with rest := rest, consumed := t.span.stop }
  | [] => .ok c.ending.token { c with met := true }

/-- Goes back to an earlier place. What was looked at stays looked at. -/
def rewind (place : Cursor) : Read Unit :=
  modify fun c => { place with met := c.met }

/-- Stops at the next token. -/
def fail {α : Type} (cause : SyntaxCause) : Read α := do
  throw ⟨cause, ← peek⟩

/-- Whether the next token is a given mark. -/
def nextIs (m : Mark) : Read Bool := do
  return (← peek).kind.isMark m

/-- Whether the next token is an identifier and the one after it a given mark. -/
def identifierThen (m : Mark) : Read Bool := do
  if (← peek).kind.isIdentifier then
    return (← peekSecond).kind.isMark m
  else
    return false

/-- Takes a mark if it is next, and says whether it was. -/
def accept (m : Mark) : Read Bool := do
  if ← nextIs m then
    let _ ← advance
    return true
  else
    return false

/-- Takes a keyword if it is next, and says whether it was. -/
def acceptKeyword (k : Keyword) : Read Bool := do
  if (← peek).kind.isKeyword k then
    let _ ← advance
    return true
  else
    return false

/-- Takes a mark that has to be next. -/
def expect (m : Mark) (cause : SyntaxCause) : Read Token := do
  if ← nextIs m then advance else fail cause

/-- Takes an identifier that has to be next. -/
def expectIdentifier (cause : SyntaxCause) : Read Token := do
  if (← peek).kind.isIdentifier then advance else fail cause

/-- One or more items with commas between them. -/
def separated {α : Type} (item : Read α) : Nat → Read (List α)
  | 0 => fail .nesting
  | budget + 1 => do
    let first ← item
    if ← accept .comma then
      return first :: (← separated item budget)
    else
      return [first]

/-- The segments of a dotted name after its first one; a point is taken only before an
identifier. -/
def dottedTail : Nat → String → Read String
  | 0, name => pure name
  | budget + 1, name => do
    if (← peek).kind.isMark .dot then
      if (← peekSecond).kind.isIdentifier then
        let _ ← advance
        let segment ← advance
        dottedTail budget s!"{name}.{segment.lexeme}"
      else
        return name
    else
      return name

/-- Pairs of brackets after a type name. -/
def dimensions : Nat → Nat → Read Nat
  | 0, dims => pure dims
  | budget + 1, dims => do
    if ← nextIs .lbracket then
      if (← peekSecond).kind.isMark .rbracket then
        let _ ← advance
        let _ ← advance
        dimensions budget (dims + 1)
      else
        return dims
    else
      return dims

end Read

end HostScript
