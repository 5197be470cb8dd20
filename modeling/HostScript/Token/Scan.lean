import HostScript.Token
import HostScript.Text.WordChar
import HostScript.Floating.Decimal

/-!
# From characters to tokens

A text is read from left to right. Blanks and comments separate tokens; at every other place the
longest token is taken. `scan` reads a whole text and stops at its end or at the first characters
that form no token.
-/

set_option autoImplicit false

namespace HostScript

open Text Floating

/-- The number of bytes that characters take. -/
def byteLength : List Char → Nat
  | [] => 0
  | c :: cs => c.utf8Size + byteLength cs

namespace Token

/-- What stands between two tokens: plain blanks, a comment up to the end of the line, or a comment
up to its closing mark, with the offset at which it was opened. -/
inductive Gap where
  | plain
  | line
  | block (opened : Nat)

/-- Passes over blanks and comments from an offset on. Gives the offset and the characters of the
next token, or the diagnostic of a comment that is not closed. -/
def skipGap : Gap → Nat → List Char → Except Diagnostic (Nat × List Char)
  | .block opened, offset, [] => .error ⟨.lexical .openComment, ⟨opened, offset⟩, none⟩
  | _, offset, [] => .ok (offset, [])
  | .plain, offset, '/' :: '/' :: cs => skipGap .line (offset + 2) cs
  | .plain, offset, '/' :: '*' :: cs => skipGap (.block offset) (offset + 2) cs
  | .plain, offset, c :: cs =>
    if isBlank c then skipGap .plain (offset + c.utf8Size) cs else .ok (offset, c :: cs)
  | .line, offset, c :: cs =>
    skipGap (if c = '\n' then .plain else .line) (offset + c.utf8Size) cs
  | .block _, offset, '*' :: '/' :: cs => skipGap .plain (offset + 2) cs
  | .block opened, offset, c :: cs => skipGap (.block opened) (offset + c.utf8Size) cs

/-- What was found at the front of a text: a token with its characters and the rest, or a cause with
the bytes that it concerns, counted from the front. -/
inductive Found where
  | token (kind : Token.Kind) (taken rest : List Char)
  | broken (cause : LexicalCause) (span : Span)

/-- Characters of a hexadecimal literal after its mark. -/
def isHexChar (c : Char) : Bool :=
  c.isDigit || ('a' ≤ c && c ≤ 'f') || ('A' ≤ c && c ≤ 'F') || c == '_'

/-- The characters of a number without the underscores that group them. -/
def ungrouped (cs : List Char) : List Char :=
  cs.filter (· != '_')

/-- Splits off a suffix letter if one of the given letters comes next. -/
def splitSuffix (letters : List Char) : List Char → Option Char × List Char
  | c :: cs => if letters.contains c then (some c, cs) else (none, c :: cs)
  | [] => (none, [])

/-- Reads a hexadecimal literal whose first two characters are given. -/
def scanHex (zero x : Char) (cs : List Char) : Found :=
  let digits := cs.takeWhile isHexChar
  let (suffix, rest) := splitSuffix ['L', 'l'] (cs.dropWhile isHexChar)
  let taken := zero :: x :: digits ++ suffix.toList
  let ds := ungrouped digits
  let number :=
    if ds.isEmpty then none
    else if suffix.isSome then
      (numeralBelow? 16 hexDigit (Nat.pow 2 63) ds).map fun n => Number.long (Int64.ofNat n)
    else (numeralBelow? 16 hexDigit (Nat.pow 2 32) ds).map fun n => Number.int (Int32.ofNat n)
  match number with
  | some n => .token (.number n) taken rest
  | none => .broken .hexLiteral ⟨0, byteLength taken⟩

/-- Splits off the characters that continue a decimal literal: digits and underscores, one point
before a digit, and exponent marks with their signs. The flag says whether a point or an exponent
mark was met. -/
def splitDecimal (floating : Bool) : List Char → List Char × Bool × List Char
  | [] => ([], floating, [])
  | c :: cs =>
    if c.isDigit || c == '_' then
      let (taken, flag, rest) := splitDecimal floating cs
      (c :: taken, flag, rest)
    else if c == '.' && !floating && (cs.head?.any Char.isDigit) then
      let (taken, flag, rest) := splitDecimal true cs
      (c :: taken, flag, rest)
    else if c == 'e' || c == 'E' then
      match cs with
      | s :: cs' =>
        if s == '+' || s == '-' then
          let (taken, flag, rest) := splitDecimal true cs'
          (c :: s :: taken, flag, rest)
        else
          let (taken, flag, rest) := splitDecimal true (s :: cs')
          (c :: taken, flag, rest)
      | [] => ([c], true, [])
    else ([], floating, c :: cs)

/-- The number that the characters of a decimal literal denote, given its suffix and whether it has
a point or an exponent. -/
def decimalNumber? (digits : List Char) (suffix : Option Char) (floating : Bool) :
    Option Number :=
  match suffix.map Char.toLower, floating with
  | some 'l', false =>
    (numeralBelow? 10 decimalDigit (Nat.pow 2 63) digits).map fun n => .long (Int64.ofNat n)
  | some 'l', true => none
  | some 'f', _ => (Decimal.read? digits).map fun d => .float d.toSingle
  | none, false =>
    (numeralBelow? 10 decimalDigit (Nat.pow 2 31) digits).map fun n => .int (Int32.ofNat n)
  | _, _ => (Decimal.read? digits).map fun d => .double d.toDouble

/-- Reads a decimal literal whose first digit is given. -/
def scanDecimal (first : Char) (cs : List Char) : Found :=
  let (digits, floating, after) := splitDecimal false cs
  let (suffix, rest) := splitSuffix ['L', 'l', 'F', 'f', 'D', 'd'] after
  let taken := first :: digits ++ suffix.toList
  match decimalNumber? (ungrouped (first :: digits)) suffix floating with
  | some n => .token (.number n) taken rest
  | none => .broken (.numberLiteral (String.ofList taken)) ⟨0, byteLength taken⟩

/-- Reads a number whose first digit is given. -/
def scanNumber (first : Char) (cs : List Char) : Found :=
  match cs with
  | x :: cs' =>
    if first == '0' && (x == 'x' || x == 'X') then scanHex first x cs' else scanDecimal first cs
  | [] => scanDecimal first cs

/-- The character that an escape letter denotes. -/
def escaped? : Char → Option Char
  | 'n' => some '\n'
  | 'r' => some '\r'
  | 't' => some '\t'
  | '0' => some (Char.ofNat 0)
  | '\'' => some '\''
  | '"' => some '"'
  | '\\' => some '\\'
  | _ => none

/-- Reads the characters of a text literal after its opening quote. `before` are the characters
taken so far and `value` the characters denoted so far, both reversed. -/
def scanText (before value : List Char) : List Char → Found
  | [] => .broken .openText ⟨0, byteLength before⟩
  | '"' :: cs =>
    .token (.text (String.ofList value.reverse)) (('"' :: before).reverse) cs
  | ['\\'] => .broken .openEscape ⟨0, byteLength before + 1⟩
  | '\\' :: c :: cs =>
    match escaped? c with
    | some e => scanText (c :: '\\' :: before) (e :: value) cs
    | none => .broken (.escape c) ⟨byteLength before, byteLength before + 1 + c.utf8Size⟩
  | c :: cs =>
    if c = '\n' then .broken .openText ⟨0, byteLength before + 1⟩
    else scanText (c :: before) (c :: value) cs

/-- Reads the closing quote of a character literal that denotes `value`; `taken` are the characters
before it. -/
def closeChar (value : Char) (taken : List Char) : List Char → Found
  | '\'' :: cs => .token (.char value) (taken ++ ['\'']) cs
  | _ => .broken .openChar ⟨0, byteLength taken⟩

/-- Reads a character literal after its opening quote. -/
def scanChar : List Char → Found
  | [] => .broken .emptyChar ⟨0, 1⟩
  | '\'' :: _ => .broken .emptyChar ⟨0, 2⟩
  | '\n' :: _ => .broken .emptyChar ⟨0, 2⟩
  | ['\\'] => .broken .openEscape ⟨0, 2⟩
  | '\\' :: c :: cs =>
    match escaped? c with
    | some e => closeChar e ['\'', '\\', c] cs
    | none => .broken (.escape c) ⟨1, 2 + c.utf8Size⟩
  | c :: cs => closeChar c ['\'', c] cs

/-- The mark that two characters form together. -/
def doubleMark? : Char → Char → Option Mark
  | '+', '+' => some .plusPlus
  | '+', '=' => some .plusAssign
  | '-', '-' => some .minusMinus
  | '-', '=' => some .minusAssign
  | '*', '=' => some .starAssign
  | '/', '=' => some .slashAssign
  | '%', '=' => some .percentAssign
  | '=', '=' => some .equalEqual
  | '!', '=' => some .bangEqual
  | '&', '&' => some .doubleAmpersand
  | '|', '|' => some .doublePipe
  | '<', '=' => some .lessEqual
  | '>', '=' => some .greaterEqual
  | _, _ => none

/-- The mark that one character is. -/
def singleMark? : Char → Option Mark
  | '(' => some .lparen
  | ')' => some .rparen
  | '\x7b' => some .lbrace
  | '\x7d' => some .rbrace
  | '[' => some .lbracket
  | ']' => some .rbracket
  | ',' => some .comma
  | '.' => some .dot
  | ':' => some .colon
  | ';' => some .semicolon
  | '?' => some .question
  | '=' => some .assign
  | '+' => some .plus
  | '-' => some .minus
  | '*' => some .star
  | '/' => some .slash
  | '%' => some .percent
  | '&' => some .ampersand
  | '|' => some .pipe
  | '^' => some .caret
  | '!' => some .bang
  | '<' => some .less
  | '>' => some .greater
  | _ => none

/-- Reads a mark; two characters that form a mark are taken together. -/
def scanMark (c : Char) (cs : List Char) : Found :=
  let single :=
    match singleMark? c with
    | some m => Found.token (.mark m) [c] cs
    | none => Found.broken (.strayChar c) ⟨0, c.utf8Size⟩
  match cs with
  | d :: ds =>
    match doubleMark? c d with
    | some m => .token (.mark m) [c, d] ds
    | none => single
  | [] => single

/-- Reads a keyword or an identifier whose first character is given. -/
def scanWord (c : Char) (cs : List Char) : Found :=
  let taken := c :: cs.takeWhile isWordChar
  let kind := match Keyword.ofWord? (String.ofList taken) with
    | some k => Token.Kind.keyword k
    | none => .identifier
  .token kind taken (cs.dropWhile isWordChar)

/-- Reads the token at the front of a text whose first character is given. -/
def scanToken (c : Char) (cs : List Char) : Found :=
  if isWordStart c then scanWord c cs
  else if c.isDigit then scanNumber c cs
  else if c = '"' then scanText ['"'] [] cs
  else if c = '\'' then scanChar cs
  else scanMark c cs

/-- How the tokens of a text end: with the text, whose length is given, or with a diagnostic. -/
inductive Ending where
  | complete (length : Nat)
  | broken (d : Diagnostic)

/-- The tokens of a text up to its end or to the first characters that form none. -/
structure Stream where
  tokens : List Token
  ending : Ending

/-- The tokens of the characters from an offset on. The budget is at least the number of characters,
so it never runs out before the text does. -/
def scanFrom : Nat → Nat → List Char → Stream
  | budget, offset, cs =>
    match skipGap .plain offset cs with
    | .error d => ⟨[], .broken d⟩
    | .ok (start, []) => ⟨[], .complete start⟩
    | .ok (start, c :: rest) =>
      match budget with
      | 0 => ⟨[], .complete start⟩
      | budget + 1 =>
        match scanToken c rest with
        | .broken cause span => ⟨[], .broken ⟨.lexical cause, span.shift start, none⟩⟩
        | .token kind taken after =>
          let stop := start + byteLength taken
          let later := scanFrom budget stop after
          ⟨⟨kind, String.ofList taken, ⟨start, stop⟩⟩ :: later.tokens, later.ending⟩

end Token

/-- The tokens of a text. -/
def scan (source : String) : Token.Stream :=
  Token.scanFrom source.toList.length 0 source.toList

/-- The token that stands after the last one: it sits at the end of the text, or where the broken
token starts. -/
def Token.Ending.token : Token.Ending → Token
  | .complete length => Token.endAt length
  | .broken d => Token.endAt d.span.start

end HostScript
