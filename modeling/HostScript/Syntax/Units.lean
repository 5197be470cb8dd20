import HostScript.Syntax.Statement

/-!
# Units

A script is a sequence of top-level statements, its units, which are read one at a time: a unit can
run before the text after it is looked at. A failure blames the broken token if reading looked at
it, and the grammar otherwise.
-/

set_option autoImplicit false

namespace HostScript

/-- The diagnostic for a reader that got stuck. -/
def Cursor.blame (c : Cursor) (stuck : Stuck) : Diagnostic :=
  match c.ending, c.met with
  | .broken d, true => d
  | _, _ =>
    let found := if stuck.token.kind.isEof then none else some stuck.token.lexeme
    ⟨.syntactic stuck.cause found, stuck.token.span, none⟩

/-- The start of a text. -/
def Cursor.ofSource (source : String) : Cursor :=
  let stream := scan source
  { rest := stream.tokens, ending := stream.ending }

/-- The cursor after a broken token has been reported: from then on it counts as the end. -/
def Cursor.settle (c : Cursor) : Cursor :=
  { c with ending := .complete c.ending.token.span.start }

/-- The next unit of a text: a statement, nothing at the end of the text, or a diagnostic. -/
def nextUnit (c : Cursor) : Except Diagnostic (Option Stmt) × Cursor :=
  match c.rest, c.ending with
  | [], .broken d => (.error d, c.settle)
  | [], .complete _ => (.ok none, c)
  | _ :: _, _ =>
    match Read.statement (c.rest.length + 1) c with
    | .ok unit c' => (.ok (some unit), c')
    | .error stuck c' => (.error (c'.blame stuck), if c'.met then c'.settle else c')

/-- All units from a cursor on, each with the offset up to which the text was read, and the
diagnostic at which reading stopped. -/
def unitsFrom : Nat → Cursor → List (Stmt × Nat) × Option Diagnostic
  | 0, _ => ([], none)
  | budget + 1, c =>
    match nextUnit c with
    | (.error d, _) => ([], some d)
    | (.ok none, _) => ([], none)
    | (.ok (some unit), c') =>
      let (later, failure) := unitsFrom budget c'
      ((unit, c'.consumed) :: later, failure)

/-- All units of a text and the diagnostic at which reading stopped. -/
def readUnits (source : String) : List (Stmt × Nat) × Option Diagnostic :=
  let c := Cursor.ofSource source
  unitsFrom (c.rest.length + 1) c

/-- The units of a text that can be read to its end. -/
def parseUnits (source : String) : Except Diagnostic (List Stmt) :=
  match readUnits source with
  | (units, none) => .ok (units.map Prod.fst)
  | (_, some d) => .error d

/-- The expression that a text consists of. -/
def parseExpression (source : String) : Except Diagnostic Expr :=
  let c := Cursor.ofSource source
  let whole : Read Expr := do
    let e ← Read.expression (c.rest.length + 1)
    if (← Read.peek).kind.isEof then
      return e
    else
      Read.fail .endOfExpression
  match whole c with
  | .ok e _ => .ok e
  | .error stuck c' => .error (c'.blame stuck)

end HostScript
