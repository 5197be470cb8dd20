import HostScript.Syntax.Expression
import Mathlib

/-!
# How syntax trees are spelled

A tree is spelled by words: kinds of tokens with their values, and the names of identifiers (`Word`). A comma after
the last item in braces and the repetition of the type before the braces of a declared array are left to the writer.
So a tree gives pieces, some of which may be left out (`Expr.pieces`, `Stmt.pieces`), and words fit pieces (`Fits`).

The rank of an expression says how tightly it binds (`Expr.rank`). What stands within a tree is listed (`Expr.parts`,
`Stmt.parts`), and can be used for induction.
-/

set_option autoImplicit false

namespace HostScript

/-! ## Words and pieces -/

/-- What a token says, wherever it stands: its kind and value, and the name if it is an identifier. -/
structure Word where
  kind : Token.Kind
  name : String := ""

namespace Word

def mark (m : Mark) : Word := ⟨.mark m, ""⟩

def keyword (k : Keyword) : Word := ⟨.keyword k, ""⟩

def identifier (name : String) : Word := ⟨.identifier, name⟩

end Word

/-- The word that a token is. -/
def Token.word (t : Token) : Word := ⟨t.kind, if t.kind.isIdentifier then t.lexeme else ""⟩

/-- A part of a spelling: a word, or words that may be left out together. -/
inductive Piece where
  | word (w : Word)
  | maybe (ws : List Word)

/-- Words as pieces. -/
def Piece.ofWords (ws : List Word) : List Piece := ws.map .word

/-- Words that spell pieces. -/
inductive Fits : List Piece → List Word → Prop
  | nil : Fits [] []
  | word {w : Word} {ps : List Piece} {ws : List Word} : Fits ps ws → Fits (.word w :: ps) (w :: ws)
  | leave {l : List Word} {ps : List Piece} {ws : List Word} : Fits ps ws → Fits (.maybe l :: ps) ws
  | take {l : List Word} {ps : List Piece} {ws : List Word} : Fits ps ws → Fits (.maybe l :: ps) (l ++ ws)

theorem Fits.append {ps qs : List Piece} {ws vs : List Word} (h : Fits ps ws) (h' : Fits qs vs) :
    Fits (ps ++ qs) (ws ++ vs) := by
  induction h with
  | nil => exact h'
  | word _ ih => exact .word ih
  | leave _ ih => exact .leave ih
  | take _ ih =>
    rw [List.append_assoc]
    exact .take ih

theorem fits_ofWords (ws : List Word) : Fits (Piece.ofWords ws) ws := by
  induction ws with
  | nil => exact .nil
  | cons w ws ih => exact .word ih

/-- Spellings with commas between them. -/
def commas : List (List Piece) → List Piece
  | [] => []
  | [ps] => ps
  | ps :: qs :: rest => ps ++ .word (.mark .comma) :: commas (qs :: rest)

/-! ## Names and types -/

/-- The parts of a name between its points. -/
def segments : List Char → List (List Char)
  | [] => [[]]
  | c :: cs =>
    if c = '.' then [] :: segments cs
    else (c :: (segments cs).headD []) :: (segments cs).tail

/-- Identifiers with points between them. -/
def dotted : List (List Char) → List Word
  | [] => []
  | [s] => [.identifier (String.ofList s)]
  | s :: rest => .identifier (String.ofList s) :: .mark .dot :: dotted rest

/-- The words of a dotted name. -/
def pathWords (name : String) : List Word := dotted (segments name.toList)

/-- The words of the name of a type, which may be a keyword. -/
def typeNameWords (name : String) : List Word :=
  match Keyword.ofWord? name with
  | some k => [.keyword k]
  | none => pathWords name

/-- Pairs of brackets. -/
def bracketWords : Nat → List Word
  | 0 => []
  | dims + 1 => .mark .lbracket :: .mark .rbracket :: bracketWords dims

def TypeName.words (t : TypeName) : List Word := typeNameWords t.name ++ bracketWords t.dims

def TypeName.pieces (t : TypeName) : List Piece := Piece.ofWords t.words

/-! ## Expressions -/

def BinaryOp.mark : BinaryOp → Mark
  | .add => .plus
  | .sub => .minus
  | .mul => .star
  | .div => .slash
  | .mod => .percent
  | .equal => .equalEqual
  | .notEqual => .bangEqual
  | .less => .less
  | .lessEqual => .lessEqual
  | .greater => .greater
  | .greaterEqual => .greaterEqual
  | .and => .doubleAmpersand
  | .or => .doublePipe
  | .bitAnd => .ampersand
  | .bitOr => .pipe
  | .bitXor => .caret

/-- The mark of an assignment that combines with an operator; only the operators of arithmetic have one. -/
def assignMark : Option BinaryOp → Mark
  | some .add => .plusAssign
  | some .sub => .minusAssign
  | some .mul => .starAssign
  | some .div => .slashAssign
  | some .mod => .percentAssign
  | _ => .assign

def UnaryOp.mark : UnaryOp → Mark
  | .negate => .minus
  | .plus => .plus
  | .not => .bang

def Step.mark : Step → Mark
  | .increment => .plusPlus
  | .decrement => .minusMinus

def Literal.word : Literal → Word
  | .number n => ⟨.number n, ""⟩
  | .char c => ⟨.char c, ""⟩
  | .bool true => .keyword .trueWord
  | .bool false => .keyword .falseWord
  | .text s => ⟨.text s, ""⟩
  | .null => .keyword .nullWord
  | .void => .keyword .void

namespace Expr

/-- Items in braces; a comma may follow the last one. -/
def braced (items : List (List Piece)) : List Piece :=
  .word (.mark .lbrace) :: commas items ++
    ((if items.isEmpty then [] else [.maybe [.mark .comma]]) ++ [.word (.mark .rbrace)])

/-- Arguments in parentheses. -/
def parenthesized (args : List (List Piece)) : List Piece :=
  .word (.mark .lparen) :: commas args ++ [.word (.mark .rparen)]

/-- The words before the braces of an array that is not declared. -/
def arrayHead (element : TypeName) : List Word :=
  .keyword .newWord :: element.words ++ [.mark .lbracket, .mark .rbracket]

mutual

/-- How an expression is spelled. -/
def pieces : Expr → List Piece
  | literal _ value => [.word value.word]
  | name _ x => [.word (.identifier x)]
  | this _ => [.word (.keyword .thisWord)]
  | super _ => [.word (.keyword .superWord)]
  | binary _ op left right => left.pieces ++ .word (.mark op.mark) :: right.pieces
  | unary _ op operand => .word (.mark op.mark) :: operand.pieces
  | assign _ target op value => target.pieces ++ .word (.mark (assignMark op)) :: value.pieces
  | preStep _ step target => .word (.mark step.mark) :: target.pieces
  | postStep _ step target => target.pieces ++ [.word (.mark step.mark)]
  | conditional _ condition yes no =>
    condition.pieces ++ .word (.mark .question) :: (yes.pieces ++ .word (.mark .colon) :: no.pieces)
  | call _ x args => .word (.identifier x) :: parenthesized (piecesAll args)
  | methodCall _ target x args =>
    target.pieces ++ .word (.mark .dot) :: .word (.identifier x) :: parenthesized (piecesAll args)
  | field _ target x => target.pieces ++ [.word (.mark .dot), .word (.identifier x)]
  | index _ target i => target.pieces ++ .word (.mark .lbracket) :: (i.pieces ++ [.word (.mark .rbracket)])
  | new _ type args => .word (.keyword .newWord) :: type.pieces ++ parenthesized (piecesAll args)
  | newArray _ element length => .word (.keyword .newWord) :: element.pieces ++
    .word (.mark .lbracket) :: (length.pieces ++ [.word (.mark .rbracket)])
  | arrayInit _ element items => Piece.ofWords (arrayHead element) ++ braced (piecesAll items)
  | cast _ type operand =>
    .word (.mark .lparen) :: type.pieces ++ .word (.mark .rparen) :: operand.pieces
  | group _ inner => .word (.mark .lparen) :: inner.pieces ++ [.word (.mark .rparen)]

def piecesAll : List Expr → List (List Piece)
  | [] => []
  | e :: es => e.pieces :: piecesAll es

end

/-- How tightly an expression binds: assignments, conditional expressions, the levels of binary operators, unary
operators, steps after an operand, and what stands for itself or in brackets. -/
def rank : Expr → Nat
  | assign .. => 0
  | conditional .. => 1
  | binary _ op _ _ => 2 + op.level
  | unary .. | preStep .. | cast .. => 11
  | postStep .. => 12
  | _ => 13

mutual

/-- The expression and all expressions within it. -/
def subs : Expr → List Expr
  | literal s value => [literal s value]
  | name s x => [name s x]
  | this s => [this s]
  | super s => [super s]
  | binary s op left right => binary s op left right :: (left.subs ++ right.subs)
  | unary s op operand => unary s op operand :: operand.subs
  | assign s target op value => assign s target op value :: (target.subs ++ value.subs)
  | preStep s step target => preStep s step target :: target.subs
  | postStep s step target => postStep s step target :: target.subs
  | conditional s condition yes no =>
    conditional s condition yes no :: (condition.subs ++ (yes.subs ++ no.subs))
  | call s x args => call s x args :: subsAll args
  | methodCall s target x args => methodCall s target x args :: (target.subs ++ subsAll args)
  | field s target x => field s target x :: target.subs
  | index s target i => index s target i :: (target.subs ++ i.subs)
  | new s type args => new s type args :: subsAll args
  | newArray s element length => newArray s element length :: length.subs
  | arrayInit s element items => arrayInit s element items :: subsAll items
  | cast s type operand => cast s type operand :: operand.subs
  | group s inner => group s inner :: inner.subs

def subsAll : List Expr → List Expr
  | [] => []
  | e :: es => e.subs ++ subsAll es

end

/-- The operands of a binary operator bind tightly enough: the left one as tightly, the right one more tightly. -/
def BindsRight : Expr → Prop
  | binary _ op left right => 2 + op.level ≤ left.rank ∧ 2 + op.level < right.rank
  | _ => True

/-- The expressions within an expression. -/
def parts (e : Expr) : List Expr := e.subs.tail

theorem subs_eq (e : Expr) : e.subs = e :: e.parts := by
  cases e <;> rfl

theorem mem_subs (e : Expr) : e ∈ e.subs := by
  rw [subs_eq]
  exact List.mem_cons_self

theorem mem_subsAll {es : List Expr} {f : Expr} : f ∈ subsAll es ↔ ∃ e ∈ es, f ∈ e.subs := by
  induction es with
  | nil => simp [subsAll]
  | cons e es ih => simp [subsAll, ih]

/-- What holds of an expression if it holds of the expressions within it holds of all expressions. -/
theorem induction_parts {p : Expr → Prop} (h : ∀ e, (∀ f ∈ e.parts, p f) → p e) (e : Expr) : p e := by
  have hsubs : ∀ e : Expr, (∀ f ∈ e.parts, p f) → ∀ f ∈ e.subs, p f := by
    intro e he
    rw [subs_eq]
    exact List.forall_mem_cons.2 ⟨h e he, he⟩
  suffices hall : ∀ f ∈ e.subs, p f from hall e e.mem_subs
  apply hsubs
  induction e using Expr.rec (motive_2 := fun es => ∀ e ∈ es, ∀ f ∈ e.parts, p f) with
  | nil => contradiction
  | cons e es ihe ihes => grind
  | _ => grind [parts, subs, mem_subsAll]

end Expr

/-! ## Statements -/

def Param.pieces (p : Param) : List Piece :=
  (p.type.elim [] TypeName.pieces) ++ [.word (.identifier p.name)]

/-- How the first value of a declared variable is spelled. Items in braces may stand alone for an array of the
declared type, and the type may be repeated before them. -/
def initializerPieces (type : TypeName) : Expr → List Piece
  | .arrayInit s element items =>
    if element = ⟨type.name, type.dims - 1⟩ ∧ 0 < type.dims then
      .maybe (Expr.arrayHead element) :: Expr.braced (Expr.piecesAll items)
    else (Expr.arrayInit s element items).pieces
  | e => e.pieces

def Declarator.pieces (type : TypeName) (d : Declarator) : List Piece :=
  .word (.identifier d.name) ::
    d.initializer.elim [] fun value => .word (.mark .assign) :: initializerPieces type value

/-- The variables of a declaration with their type. -/
def declarationPieces (type : TypeName) (declarators : List Declarator) : List Piece :=
  type.pieces ++ commas (declarators.map (Declarator.pieces type))

/-- The first clause of a counting loop. -/
def Stmt.clause : Stmt → List Piece
  | .expr _ value => value.pieces
  | .declaration _ type declarators => declarationPieces type declarators
  | _ => []

/-- The words of an import after its keyword. -/
def importWords (path : String) (wildcard : Bool) : List Word :=
  pathWords path ++ (if wildcard then [.mark .dot, .mark .star] else []) ++ [.mark .semicolon]

namespace Stmt

mutual

/-- How a statement is spelled. -/
def pieces : Stmt → List Piece
  | expr _ value => value.pieces ++ [.word (.mark .semicolon)]
  | declaration _ type declarators => declarationPieces type declarators ++ [.word (.mark .semicolon)]
  | method _ name params returns body =>
    returns.elim [] TypeName.pieces ++ .word (.identifier name) ::
      (Expr.parenthesized (params.map Param.pieces) ++ .word (.mark .lbrace) ::
        (piecesAll body ++ [.word (.mark .rbrace)]))
  | block _ body => .word (.mark .lbrace) :: piecesAll body ++ [.word (.mark .rbrace)]
  | ifElse _ condition yes no =>
    .word (.keyword .ifWord) :: Expr.parenthesized [condition.pieces] ++ (yes.pieces ++ elsePieces no)
  | whileLoop _ condition body =>
    .word (.keyword .whileWord) :: Expr.parenthesized [condition.pieces] ++ body.pieces
  | doWhile _ body condition =>
    .word (.keyword .doWord) :: body.pieces ++ .word (.keyword .whileWord) ::
      (Expr.parenthesized [condition.pieces] ++ [.word (.mark .semicolon)])
  | forLoop _ init condition update body =>
    .word (.keyword .forWord) :: .word (.mark .lparen) :: commas (init.map Stmt.clause) ++
      .word (.mark .semicolon) :: (condition.elim [] Expr.pieces ++ .word (.mark .semicolon) ::
        (commas (update.map Expr.pieces) ++ .word (.mark .rparen) :: body.pieces))
  | forEach _ type binding iterable body =>
    .word (.keyword .forWord) :: .word (.mark .lparen) :: type.elim [] TypeName.pieces ++
      .word (.identifier binding) :: .word (.mark .colon) :: (iterable.pieces ++
        .word (.mark .rparen) :: body.pieces)
  | returnValue _ value =>
    .word (.keyword .returnWord) :: value.elim [] Expr.pieces ++ [.word (.mark .semicolon)]
  | breakLoop _ => [.word (.keyword .breakWord), .word (.mark .semicolon)]
  | continueLoop _ => [.word (.keyword .continueWord), .word (.mark .semicolon)]
  | importName _ path wildcard => .word (.keyword .importWord) :: Piece.ofWords (importWords path wildcard)
  | empty _ => [.word (.mark .semicolon)]

def piecesAll : List Stmt → List Piece
  | [] => []
  | s :: ss => s.pieces ++ piecesAll ss

def elsePieces : Option Stmt → List Piece
  | none => []
  | some s => .word (.keyword .elseWord) :: s.pieces

end

mutual

/-- The statement and all statements within it. -/
def subs : Stmt → List Stmt
  | method s name params returns body => method s name params returns body :: subsAll body
  | block s body => block s body :: subsAll body
  | ifElse s condition yes no => ifElse s condition yes no :: (yes.subs ++ subsOption no)
  | whileLoop s condition body => whileLoop s condition body :: body.subs
  | doWhile s body condition => doWhile s body condition :: body.subs
  | forLoop s init condition update body =>
    forLoop s init condition update body :: (subsAll init ++ body.subs)
  | forEach s type binding iterable body => forEach s type binding iterable body :: body.subs
  | expr s value => [expr s value]
  | declaration s type declarators => [declaration s type declarators]
  | returnValue s value => [returnValue s value]
  | breakLoop s => [breakLoop s]
  | continueLoop s => [continueLoop s]
  | importName s path wildcard => [importName s path wildcard]
  | empty s => [empty s]

def subsAll : List Stmt → List Stmt
  | [] => []
  | s :: ss => s.subs ++ subsAll ss

def subsOption : Option Stmt → List Stmt
  | none => []
  | some s => s.subs

end

/-- The expressions that stand in a statement itself. -/
def exprs : Stmt → List Expr
  | expr _ value => [value]
  | declaration _ _ declarators => declarators.filterMap Declarator.initializer
  | ifElse _ condition _ _ => [condition]
  | whileLoop _ condition _ => [condition]
  | doWhile _ _ condition => [condition]
  | forLoop _ _ condition update _ => condition.toList ++ update
  | forEach _ _ _ iterable _ => [iterable]
  | returnValue _ value => value.toList
  | _ => []

/-- The constructs that a statement is made of besides expressions and statements. -/
def constructs : Stmt → List (Span × String)
  | .declaration _ _ ds => ds.map fun d => (d.span, s!"declaration of `{d.name}`")
  | .importName span path false => [(span, s!"import `{path}`")]
  | _ => []

/-- The statements within a statement. -/
def parts (s : Stmt) : List Stmt := s.subs.tail

theorem subs_eq (s : Stmt) : s.subs = s :: s.parts := by
  cases s <;> rfl

theorem mem_subs (s : Stmt) : s ∈ s.subs := by
  rw [subs_eq]
  exact List.mem_cons_self

theorem mem_subsAll {ss : List Stmt} {t : Stmt} : t ∈ subsAll ss ↔ ∃ s ∈ ss, t ∈ s.subs := by
  induction ss with
  | nil => simp [subsAll]
  | cons s ss ih => simp [subsAll, ih]

/-- What holds of a statement if it holds of the statements within it holds of all statements. -/
theorem induction_parts {p : Stmt → Prop} (h : ∀ s, (∀ t ∈ s.parts, p t) → p s) (s : Stmt) : p s := by
  have hsubs : ∀ s : Stmt, (∀ t ∈ s.parts, p t) → ∀ t ∈ s.subs, p t := by
    intro s hs
    rw [subs_eq]
    exact List.forall_mem_cons.2 ⟨h s hs, hs⟩
  suffices hall : ∀ t ∈ s.subs, p t from hall s s.mem_subs
  apply hsubs
  induction s using Stmt.rec (motive_2 := fun ss => ∀ s ∈ ss, ∀ t ∈ s.parts, p t)
    (motive_3 := fun s? => ∀ s ∈ s?, ∀ t ∈ s.parts, p t) with
  | nil => contradiction
  | none => contradiction
  | cons s ss ihs ihss => grind
  | some s ihs => grind
  | ifElse span c yes no ihyes ihno => cases no <;> grind [parts, subs, subsOption]
  | _ => grind [parts, subs, mem_subsAll]

/-- A statement that ends with a choice without `else`, to which an `else` after it would belong. -/
def endsOpen : Stmt → Bool
  | ifElse _ _ _ none => true
  | ifElse _ _ _ (some no) => no.endsOpen
  | whileLoop _ _ body => body.endsOpen
  | forLoop _ _ _ _ body => body.endsOpen
  | forEach _ _ _ _ body => body.endsOpen
  | _ => false

/-- No `else` could belong to a choice nearer than its own. -/
def ElseNearest : Stmt → Prop
  | ifElse _ _ yes (some _) => yes.endsOpen = false
  | _ => True

end Stmt

end HostScript
