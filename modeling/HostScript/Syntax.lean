import HostScript.Operator
import HostScript.Primitive
import HostScript.Token

/-!
# Syntax trees

Expressions and statements of the script language. Every node carries the bytes of the text that it
was read from.
-/

set_option autoImplicit false

namespace HostScript

/-- Values that a script spells out. -/
inductive Literal where
  | number (n : Number)
  | char (c : Char)
  | bool (b : Bool)
  | text (s : String)
  | null
  | void

/-- The primitive value of a number literal. -/
def Number.value : Number → Primitive
  | .int n => .int n
  | .long n => .long n
  | .float x => .float x
  | .double x => .double x

/-- A declared type: a primitive or class name and a number of array dimensions. -/
structure TypeName where
  name : String
  dims : Nat := 0
  deriving DecidableEq, Repr

/-- How a type is written. -/
def TypeName.text (t : TypeName) : String :=
  t.name ++ String.join (List.replicate t.dims "[]")

/-- A parameter of a scripted method; its type may be left open. -/
structure Param where
  name : String
  type : Option TypeName
  span : Span
  deriving DecidableEq, Repr

/-- Expressions. -/
inductive Expr where
  | literal (span : Span) (value : Literal)
  | name (span : Span) (name : String)
  | this (span : Span)
  | super (span : Span)
  | binary (span : Span) (op : BinaryOp) (left right : Expr)
  | unary (span : Span) (op : UnaryOp) (operand : Expr)
  | assign (span : Span) (target : Expr) (op : Option BinaryOp) (value : Expr)
  | preStep (span : Span) (step : Step) (target : Expr)
  | postStep (span : Span) (step : Step) (target : Expr)
  | conditional (span : Span) (condition yes no : Expr)
  | call (span : Span) (name : String) (args : List Expr)
  | methodCall (span : Span) (target : Expr) (name : String) (args : List Expr)
  | field (span : Span) (target : Expr) (name : String)
  | index (span : Span) (target index : Expr)
  | new (span : Span) (type : TypeName) (args : List Expr)
  | newArray (span : Span) (element : TypeName) (length : Expr)
  | arrayInit (span : Span) (element : TypeName) (items : List Expr)
  | cast (span : Span) (type : TypeName) (operand : Expr)
  | group (span : Span) (inner : Expr)

namespace Expr

/-- The bytes that an expression was read from. -/
def span : Expr → Span
  | literal s .. | name s .. | this s | super s | binary s .. | unary s .. | assign s ..
  | preStep s .. | postStep s .. | conditional s .. | call s .. | methodCall s .. | field s ..
  | index s .. | new s .. | newArray s .. | arrayInit s .. | cast s .. | group s .. => s

/-- The dotted name that a chain of names and members spells. -/
def qualifiedName? : Expr → Option String
  | name _ n => some n
  | field _ target n => target.qualifiedName?.map fun path => s!"{path}.{n}"
  | _ => none

/-- What an expression is called in messages. -/
def describe : Expr → String
  | literal .. => "literal"
  | name _ n => s!"`{n}`"
  | this _ => "`this`"
  | super _ => "`super`"
  | binary _ op _ _ => s!"operator `{op.symbol}`"
  | unary .. => "unary expression"
  | assign _ target _ _ =>
    match target.qualifiedName? with
    | some n => s!"assignment to `{n}`"
    | none => "assignment"
  | preStep .. | postStep .. => "increment"
  | conditional .. => "conditional expression"
  | call _ n _ => s!"method invocation `{n}()`"
  | methodCall _ _ n _ => s!"method invocation `.{n}()`"
  | field _ _ n => s!"field access `.{n}`"
  | index .. => "array index"
  | new _ type _ => s!"allocation `new {type.text}()`"
  | newArray _ element _ => s!"allocation `new {element.text}[]`"
  | arrayInit _ element _ => s!"allocation `new {element.text}[]`"
  | cast _ type _ => s!"cast to `{type.text}`"
  | group _ inner => inner.describe

end Expr

/-- A variable of a declaration, with its first value if one is given. -/
structure Declarator where
  name : String
  initializer : Option Expr
  span : Span

/-- Statements. -/
inductive Stmt where
  | expr (span : Span) (value : Expr)
  | declaration (span : Span) (type : TypeName) (declarators : List Declarator)
  | method (span : Span) (name : String) (params : List Param) (returns : Option TypeName)
      (body : List Stmt)
  | block (span : Span) (body : List Stmt)
  | ifElse (span : Span) (condition : Expr) (yes : Stmt) (no : Option Stmt)
  | whileLoop (span : Span) (condition : Expr) (body : Stmt)
  | doWhile (span : Span) (body : Stmt) (condition : Expr)
  | forLoop (span : Span) (init : List Stmt) (condition : Option Expr) (update : List Expr)
      (body : Stmt)
  | forEach (span : Span) (type : Option TypeName) (binding : String) (iterable : Expr)
      (body : Stmt)
  | returnValue (span : Span) (value : Option Expr)
  | breakLoop (span : Span)
  | continueLoop (span : Span)
  | importName (span : Span) (path : String) (wildcard : Bool)
  | empty (span : Span)

/-- The bytes that a statement was read from. -/
def Stmt.span : Stmt → Span
  | expr s .. | declaration s .. | method s .. | block s .. | ifElse s .. | whileLoop s ..
  | doWhile s .. | forLoop s .. | forEach s .. | returnValue s .. | breakLoop s
  | continueLoop s | importName s .. | empty s => s

end HostScript
