import HostScript.Diagnostic

/-!
# Tokens

The words, literals and marks that a script text consists of. A token knows its lexeme, the exact
characters it was read from, and the bytes they occupy.
-/

set_option autoImplicit false

namespace HostScript

/-- Words with a meaning of their own. -/
inductive Keyword where
  | boolean | char | byte | short | int | long | float | double | void
  | ifWord | elseWord | whileWord | doWord | forWord | breakWord | continueWord | returnWord
  | importWord | newWord | thisWord | superWord | trueWord | falseWord | nullWord
  deriving DecidableEq, Repr

namespace Keyword

/-- Every keyword. -/
def all : List Keyword :=
  [.boolean, .char, .byte, .short, .int, .long, .float, .double, .void, .ifWord, .elseWord,
    .whileWord, .doWord, .forWord, .breakWord, .continueWord, .returnWord, .importWord, .newWord,
    .thisWord, .superWord, .trueWord, .falseWord, .nullWord]

/-- How a keyword is written. -/
def word : Keyword → String
  | .boolean => "boolean"
  | .char => "char"
  | .byte => "byte"
  | .short => "short"
  | .int => "int"
  | .long => "long"
  | .float => "float"
  | .double => "double"
  | .void => "void"
  | .ifWord => "if"
  | .elseWord => "else"
  | .whileWord => "while"
  | .doWord => "do"
  | .forWord => "for"
  | .breakWord => "break"
  | .continueWord => "continue"
  | .returnWord => "return"
  | .importWord => "import"
  | .newWord => "new"
  | .thisWord => "this"
  | .superWord => "super"
  | .trueWord => "true"
  | .falseWord => "false"
  | .nullWord => "null"

/-- The keyword a word is. -/
def ofWord? (s : String) : Option Keyword :=
  all.find? (·.word == s)

/-- Keywords that name a primitive type. -/
def isType : Keyword → Bool
  | .boolean | .char | .byte | .short | .int | .long | .float | .double | .void => true
  | _ => false

end Keyword

/-- Brackets, separators and operators. -/
inductive Mark where
  | lparen | rparen | lbrace | rbrace | lbracket | rbracket
  | comma | dot | colon | semicolon | question
  | assign | plusAssign | minusAssign | starAssign | slashAssign | percentAssign
  | plus | minus | star | slash | percent | plusPlus | minusMinus
  | ampersand | pipe | caret | doubleAmpersand | doublePipe
  | bang | bangEqual | equalEqual | less | lessEqual | greater | greaterEqual
  deriving DecidableEq, Repr

/-- How a mark is written. -/
def Mark.text : Mark → String
  | .lparen => "("
  | .rparen => ")"
  | .lbrace => "\x7b"
  | .rbrace => "\x7d"
  | .lbracket => "["
  | .rbracket => "]"
  | .comma => ","
  | .dot => "."
  | .colon => ":"
  | .semicolon => ";"
  | .question => "?"
  | .assign => "="
  | .plusAssign => "+="
  | .minusAssign => "-="
  | .starAssign => "*="
  | .slashAssign => "/="
  | .percentAssign => "%="
  | .plus => "+"
  | .minus => "-"
  | .star => "*"
  | .slash => "/"
  | .percent => "%"
  | .plusPlus => "++"
  | .minusMinus => "--"
  | .ampersand => "&"
  | .pipe => "|"
  | .caret => "^"
  | .doubleAmpersand => "&&"
  | .doublePipe => "||"
  | .bang => "!"
  | .bangEqual => "!="
  | .equalEqual => "=="
  | .less => "<"
  | .lessEqual => "<="
  | .greater => ">"
  | .greaterEqual => ">="

/-- The value of a number literal. -/
inductive Number where
  | int (n : Int32)
  | long (n : Int64)
  | float (x : Float32)
  | double (x : Float)

/-- What a token is. -/
inductive Token.Kind where
  | identifier
  | number (n : Number)
  | text (s : String)
  | char (c : Char)
  | keyword (k : Keyword)
  | mark (m : Mark)
  | eof

/-- A token of a text. -/
structure Token where
  kind : Token.Kind
  lexeme : String
  span : Span

namespace Token.Kind

/-- Whether the token is a given mark. -/
def isMark (k : Token.Kind) (m : Mark) : Bool :=
  match k with
  | .mark m' => m' = m
  | _ => false

/-- Whether the token is a given keyword. -/
def isKeyword (k : Token.Kind) (w : Keyword) : Bool :=
  match k with
  | .keyword w' => w' = w
  | _ => false

/-- Whether the token is a name that scripts choose. -/
def isIdentifier : Token.Kind → Bool
  | .identifier => true
  | _ => false

/-- Whether the token ends the text. -/
def isEof : Token.Kind → Bool
  | .eof => true
  | _ => false

/-- Whether the token is a keyword that names a primitive type. -/
def isTypeWord : Token.Kind → Bool
  | .keyword k => k.isType
  | _ => false

end Token.Kind

/-- The token that stands for the end of a text at a byte offset. -/
def Token.endAt (offset : Nat) : Token := ⟨.eof, "", ⟨offset, offset⟩⟩

end HostScript
