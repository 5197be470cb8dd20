/-!
# Diagnostics

Where and why a text could not be read. A diagnostic is lexical (the characters form no token) or
syntactic (the tokens form no unit); it says at which bytes of the text, and whether more text could
still complete the unit.
-/

set_option autoImplicit false

namespace HostScript

/-- A range of bytes of a text. -/
structure Span where
  start : Nat
  stop : Nat
  deriving DecidableEq, Repr, Inhabited

/-- From the start of the first span to the end of the second. -/
def Span.to (a b : Span) : Span := ⟨a.start, b.stop⟩

/-- The span moved by a number of bytes. -/
def Span.shift (s : Span) (n : Nat) : Span := ⟨s.start + n, s.stop + n⟩

/-- The text of a span. -/
def Span.text (s : Span) : String := s!"{s.start}..{s.stop}"

/-- The place in parentheses that ends a message: a source label, a span, or both. -/
def placeText : Option String → Option Span → String
  | some label, some span => s!" ({label}:{span.text})"
  | some label, none => s!" ({label})"
  | none, some span => s!" ({span.text})"
  | none, none => ""

/-- Why characters form no token. -/
inductive LexicalCause where
  | openComment
  | hexLiteral
  | numberLiteral (lexeme : String)
  | escape (c : Char)
  | openEscape
  | openText
  | emptyChar
  | openChar
  | strayChar (c : Char)
  deriving DecidableEq, Repr

/-- The wording of a lexical cause. -/
def LexicalCause.message : LexicalCause → String
  | .openComment => "unterminated block comment"
  | .hexLiteral => "malformed hexadecimal literal"
  | .numberLiteral lexeme => s!"malformed numeric literal `{lexeme}`"
  | .escape c => s!"invalid escape sequence `\\{c}`"
  | .openEscape => "unterminated escape sequence"
  | .openText => "unterminated string literal"
  | .emptyChar => "empty character literal"
  | .openChar => "unterminated character literal"
  | .strayChar c => s!"unexpected character `{c}`"

/-- What the grammar asks for at the place where reading stopped. -/
inductive SyntaxCause where
  | semicolonAfterBreak
  | semicolonAfterContinue
  | semicolonAfterExpression
  | semicolonAfterDeclaration
  | semicolonAfterLoop
  | semicolonAfterInitializer
  | semicolonAfterForCondition
  | semicolonAfterReturn
  | semicolonAfterImport
  | parameterList
  | variableName
  | arrayStart
  | arrayEnd
  | blockStart
  | blockEnd
  | parenAfterIf
  | parenAfterWhile
  | parenAfterFor
  | parenAfterCondition
  | parenAfterIterable
  | parenAfterClauses
  | parenBeforeArguments
  | parenAfterArguments
  | parenAfterGroup
  | whileAfterBody
  | importName
  | nameSegment
  | colonInConditional
  | memberName
  | bracketAfterIndex
  | bracketAfterLength
  | typeAfterNew
  | expression
  | endOfExpression
  | nesting
  deriving DecidableEq, Repr

/-- The wording of a syntactic cause. -/
def SyntaxCause.message : SyntaxCause → String
  | .semicolonAfterBreak => "expected `;` after `break`"
  | .semicolonAfterContinue => "expected `;` after `continue`"
  | .semicolonAfterExpression => "expected `;` after expression"
  | .semicolonAfterDeclaration => "expected `;` after declaration"
  | .semicolonAfterLoop => "expected `;` after do-while"
  | .semicolonAfterInitializer => "expected `;` after for initializer"
  | .semicolonAfterForCondition => "expected `;` after for condition"
  | .semicolonAfterReturn => "expected `;` after return"
  | .semicolonAfterImport => "expected `;` after import"
  | .parameterList => "malformed parameter list"
  | .variableName => "expected variable name"
  | .arrayStart => "expected `\x7b` to start array initializer"
  | .arrayEnd => "expected `\x7d` after array initializer"
  | .blockStart => "expected `\x7b` to start block"
  | .blockEnd => "expected `\x7d` to close block"
  | .parenAfterIf => "expected `(` after `if`"
  | .parenAfterWhile => "expected `(` after `while`"
  | .parenAfterFor => "expected `(` after `for`"
  | .parenAfterCondition => "expected `)` after condition"
  | .parenAfterIterable => "expected `)` after for-each iterable"
  | .parenAfterClauses => "expected `)` after for clauses"
  | .parenBeforeArguments => "expected `(` before arguments"
  | .parenAfterArguments => "expected `)` after arguments"
  | .parenAfterGroup => "expected `)` after expression"
  | .whileAfterBody => "expected `while` after `do` body"
  | .importName => "expected name after `import`"
  | .nameSegment => "expected name segment after `.`"
  | .colonInConditional => "expected `:` in conditional expression"
  | .memberName => "expected member name after `.`"
  | .bracketAfterIndex => "expected `]` after index"
  | .bracketAfterLength => "expected `]` after array length"
  | .typeAfterNew => "expected type after `new`"
  | .expression => "unexpected token in expression"
  | .endOfExpression => "unexpected trailing input after expression"
  | .nesting => "nesting deeper than the text is long"

/-- Why a text could not be read. A syntactic cause comes with the lexeme that was found instead, or
with nothing at the end of the text. -/
inductive Diagnostic.Cause where
  | lexical (cause : LexicalCause)
  | syntactic (cause : SyntaxCause) (found : Option String)
  deriving DecidableEq, Repr

/-- A failure to read a text. -/
structure Diagnostic where
  cause : Diagnostic.Cause
  span : Span
  label : Option String := none
  deriving DecidableEq, Repr

namespace Diagnostic

/-- Whether the characters, rather than the grammar, are at fault. -/
def isLexical (d : Diagnostic) : Bool :=
  match d.cause with
  | .lexical _ => true
  | .syntactic _ _ => false

/-- Whether more text could complete the unit: a comment is open, or the text ended too early. -/
def incomplete (d : Diagnostic) : Bool :=
  match d.cause with
  | .lexical cause => cause = .openComment
  | .syntactic _ found => found.isNone

/-- The whole message: kind, cause, place, and a note on what was found. -/
def message (d : Diagnostic) : String :=
  match d.cause with
  | .lexical cause => s!"Lexer: {cause.message}{placeText d.label d.span}"
  | .syntactic cause found =>
    let note := match found with
      | some lexeme => s!"\n  note: found `{lexeme}`\n"
      | none => ""
    s!"Parser: {cause.message}{placeText d.label d.span}{note}"

end Diagnostic

end HostScript
