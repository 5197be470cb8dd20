import HostScript.Syntax
import Mathlib

/-!
# Syntax moved along a text

A token, an expression or a statement carries the bytes that it was read from. Read from a text that has
`n` more bytes in front, it is the same but for these spans, which are `n` bytes further on: `shift` says so
for all that readers give, and `span_shift` says that the span of what was moved is the span moved. Moves add up
(`LawfulPlaced`).
-/

set_option autoImplicit false

namespace HostScript

/-- What readers give: values that may hold places in a text, which can be moved. -/
class Placed (α : Type) where
  shift : α → Nat → α

instance : Placed Unit := ⟨fun a _ => a⟩
instance : Placed Bool := ⟨fun a _ => a⟩
instance : Placed Nat := ⟨fun a _ => a⟩
instance : Placed String := ⟨fun a _ => a⟩
instance : Placed TypeName := ⟨fun a _ => a⟩
instance : Placed Span := ⟨Span.shift⟩

section

variable {α β : Type} [Placed α] [Placed β]

instance : Placed (List α) := ⟨fun l n => l.map (Placed.shift · n)⟩
instance : Placed (Option α) := ⟨fun o n => o.map (Placed.shift · n)⟩
instance : Placed (α × β) := ⟨fun p n => (Placed.shift p.1 n, Placed.shift p.2 n)⟩

theorem shift_list (l : List α) (n : Nat) : Placed.shift l n = l.map (Placed.shift · n) := rfl

@[simp] theorem shift_nil (n : Nat) : Placed.shift ([] : List α) n = [] := rfl

@[simp] theorem shift_cons (a : α) (l : List α) (n : Nat) :
    Placed.shift (a :: l) n = Placed.shift a n :: Placed.shift l n := rfl

@[simp] theorem shift_append (l l' : List α) (n : Nat) :
    Placed.shift (l ++ l') n = Placed.shift l n ++ Placed.shift l' n := List.map_append

@[simp] theorem length_shift (l : List α) (n : Nat) : (Placed.shift l n).length = l.length :=
  List.length_map _

@[simp] theorem shift_none (n : Nat) : Placed.shift (none : Option α) n = none := rfl

@[simp] theorem shift_some (a : α) (n : Nat) : Placed.shift (some a) n = some (Placed.shift a n) := rfl

@[simp] theorem shift_pair (a : α) (b : β) (n : Nat) :
    Placed.shift (a, b) n = (Placed.shift a n, Placed.shift b n) := rfl

end

@[simp] theorem shift_unit (a : Unit) (n : Nat) : Placed.shift a n = a := rfl

@[simp] theorem shift_bool (a : Bool) (n : Nat) : Placed.shift a n = a := rfl

@[simp] theorem shift_nat (a n : Nat) : Placed.shift a n = a := rfl

@[simp] theorem shift_string (a : String) (n : Nat) : Placed.shift a n = a := rfl

@[simp] theorem shift_typeName (a : TypeName) (n : Nat) : Placed.shift a n = a := rfl

@[simp] theorem shift_typeName? (a : Option TypeName) (n : Nat) : Placed.shift a n = a := by
  cases a <;> rfl

@[simp] theorem shift_span (s : Span) (n : Nat) : Placed.shift s n = s.shift n := rfl

@[simp] theorem Span.shift_to (a b : Span) (n : Nat) : (a.to b).shift n = (a.shift n).to (b.shift n) := rfl

@[simp] theorem Span.shift_zero (s : Span) : s.shift 0 = s := rfl

@[simp] theorem Span.shift_shift (s : Span) (m n : Nat) : (s.shift m).shift n = s.shift (m + n) := by
  simp only [Span.shift, Nat.add_assoc]

namespace Token

/-- The token moved by a number of bytes. -/
def shift (t : Token) (n : Nat) : Token := { t with span := t.span.shift n }

instance : Placed Token := ⟨shift⟩

@[simp] theorem shift_eq (t : Token) (n : Nat) : Placed.shift t n = t.shift n := rfl

@[simp] theorem kind_shift (t : Token) (n : Nat) : (t.shift n).kind = t.kind := rfl

@[simp] theorem lexeme_shift (t : Token) (n : Nat) : (t.shift n).lexeme = t.lexeme := rfl

@[simp] theorem span_shift (t : Token) (n : Nat) : (t.shift n).span = t.span.shift n := rfl

@[simp] theorem shift_zero (t : Token) : t.shift 0 = t := rfl

@[simp] theorem shift_shift (t : Token) (m n : Nat) : (t.shift m).shift n = t.shift (m + n) := by
  simp only [shift, Span.shift_shift]

@[simp] theorem shift_endAt (offset n : Nat) : (Token.endAt offset).shift n = Token.endAt (offset + n) := rfl

end Token

/-- The parameter moved by a number of bytes. -/
def Param.shift (p : Param) (n : Nat) : Param := { p with span := p.span.shift n }

instance : Placed Param := ⟨Param.shift⟩

namespace Expr

mutual

/-- The expression moved by a number of bytes. -/
def shift : Expr → Nat → Expr
  | literal s v, n => literal (s.shift n) v
  | name s x, n => name (s.shift n) x
  | this s, n => this (s.shift n)
  | super s, n => super (s.shift n)
  | binary s op l r, n => binary (s.shift n) op (l.shift n) (r.shift n)
  | unary s op e, n => unary (s.shift n) op (e.shift n)
  | assign s t op v, n => assign (s.shift n) (t.shift n) op (v.shift n)
  | preStep s step t, n => preStep (s.shift n) step (t.shift n)
  | postStep s step t, n => postStep (s.shift n) step (t.shift n)
  | conditional s c yes no, n => conditional (s.shift n) (c.shift n) (yes.shift n) (no.shift n)
  | call s x args, n => call (s.shift n) x (shiftAll args n)
  | methodCall s t x args, n => methodCall (s.shift n) (t.shift n) x (shiftAll args n)
  | field s t x, n => field (s.shift n) (t.shift n) x
  | index s t i, n => index (s.shift n) (t.shift n) (i.shift n)
  | new s type args, n => new (s.shift n) type (shiftAll args n)
  | newArray s element length, n => newArray (s.shift n) element (length.shift n)
  | arrayInit s element items, n => arrayInit (s.shift n) element (shiftAll items n)
  | cast s type e, n => cast (s.shift n) type (e.shift n)
  | group s e, n => group (s.shift n) (e.shift n)

/-- Each of several expressions moved by a number of bytes. -/
def shiftAll : List Expr → Nat → List Expr
  | [], _ => []
  | e :: rest, n => e.shift n :: shiftAll rest n

end

instance : Placed Expr := ⟨shift⟩

@[simp] theorem shift_eq (e : Expr) (n : Nat) : Placed.shift e n = e.shift n := rfl

theorem shiftAll_eq (l : List Expr) (n : Nat) : shiftAll l n = Placed.shift l n := by
  induction l with
  | nil => rfl
  | cons e rest ih => exact congrArg (e.shift n :: ·) ih

@[simp] theorem span_shift (e : Expr) (n : Nat) : (e.shift n).span = e.span.shift n := by
  cases e <;> rfl

section Lists

variable (s : Span) (n : Nat)

theorem shift_arrayInit (element : TypeName) (items : List Expr) :
    (arrayInit s element items).shift n = arrayInit (s.shift n) element (Placed.shift items n) :=
  congrArg (arrayInit _ _) (shiftAll_eq items n)

end Lists

end Expr

/-- The declared variable moved by a number of bytes. -/
def Declarator.shift (d : Declarator) (n : Nat) : Declarator :=
  { d with initializer := Placed.shift d.initializer n, span := d.span.shift n }

instance : Placed Declarator := ⟨Declarator.shift⟩

namespace Stmt

mutual

/-- The statement moved by a number of bytes. -/
def shift : Stmt → Nat → Stmt
  | expr s e, n => expr (s.shift n) (e.shift n)
  | declaration s type ds, n => declaration (s.shift n) type (Placed.shift ds n)
  | method s name params returns body, n =>
    method (s.shift n) name (Placed.shift params n) returns (shiftAll body n)
  | block s body, n => block (s.shift n) (shiftAll body n)
  | ifElse s c yes no, n => ifElse (s.shift n) (c.shift n) (yes.shift n) (shiftOption no n)
  | whileLoop s c body, n => whileLoop (s.shift n) (c.shift n) (body.shift n)
  | doWhile s body c, n => doWhile (s.shift n) (body.shift n) (c.shift n)
  | forLoop s init c update body, n =>
    forLoop (s.shift n) (shiftAll init n) (Placed.shift c n) (Placed.shift update n) (body.shift n)
  | forEach s type x e body, n => forEach (s.shift n) type x (e.shift n) (body.shift n)
  | returnValue s e, n => returnValue (s.shift n) (Placed.shift e n)
  | breakLoop s, n => breakLoop (s.shift n)
  | continueLoop s, n => continueLoop (s.shift n)
  | importName s path wildcard, n => importName (s.shift n) path wildcard
  | empty s, n => empty (s.shift n)

/-- Each of several statements moved by a number of bytes. -/
def shiftAll : List Stmt → Nat → List Stmt
  | [], _ => []
  | s :: rest, n => s.shift n :: shiftAll rest n

/-- The statement, if there is one, moved by a number of bytes. -/
def shiftOption : Option Stmt → Nat → Option Stmt
  | none, _ => none
  | some s, n => some (s.shift n)

end

instance : Placed Stmt := ⟨shift⟩

@[simp] theorem shift_eq (s : Stmt) (n : Nat) : Placed.shift s n = s.shift n := rfl

theorem shiftAll_eq (l : List Stmt) (n : Nat) : shiftAll l n = Placed.shift l n := by
  induction l with
  | nil => rfl
  | cons s rest ih => exact congrArg (s.shift n :: ·) ih

@[simp] theorem span_shift (s : Stmt) (n : Nat) : (s.shift n).span = s.span.shift n := by
  cases s <;> rfl

section Lists

variable (s : Span) (n : Nat)

end Lists

end Stmt

/-! ## Moving twice -/

/-- Moving by no bytes changes nothing, and moves add up. -/
class LawfulPlaced (α : Type) [Placed α] : Prop where
  shift_zero : ∀ a : α, Placed.shift a 0 = a
  shift_shift : ∀ (a : α) (m n : Nat), Placed.shift (Placed.shift a m) n = Placed.shift a (m + n)

attribute [simp] LawfulPlaced.shift_zero LawfulPlaced.shift_shift

section

variable {α : Type} [Placed α] [LawfulPlaced α]

instance : LawfulPlaced (List α) where
  shift_zero l := by simp [shift_list]
  shift_shift l m n := by simp [shift_list]

instance : LawfulPlaced (Option α) where
  shift_zero o := by cases o <;> simp
  shift_shift o m n := by cases o <;> simp

end

instance : LawfulPlaced Token := ⟨Token.shift_zero, Token.shift_shift⟩

instance : LawfulPlaced Param where
  shift_zero _ := rfl
  shift_shift p m n := congrArg (fun s => { p with span := s }) (Span.shift_shift p.span m n)

theorem Expr.shift_laws :
    (∀ e : Expr, Nat → e.shift 0 = e ∧ ∀ m n, (e.shift m).shift n = e.shift (m + n)) ∧
    (∀ l : List Expr, Nat → shiftAll l 0 = l ∧ ∀ m n, shiftAll (shiftAll l m) n = shiftAll l (m + n)) := by
  apply Expr.shift.mutual_induct (fun e _ => e.shift 0 = e ∧ ∀ m n, (e.shift m).shift n = e.shift (m + n))
    (fun l _ => shiftAll l 0 = l ∧ ∀ m n, shiftAll (shiftAll l m) n = shiftAll l (m + n))
  all_goals
    intros
    simp_all [Expr.shift, Expr.shiftAll]

instance : LawfulPlaced Expr := ⟨fun e => (Expr.shift_laws.1 e 0).1, fun e => (Expr.shift_laws.1 e 0).2⟩

instance : LawfulPlaced Declarator where
  shift_zero d := by
    show Declarator.mk d.name (Placed.shift d.initializer 0) _ = d
    rw [LawfulPlaced.shift_zero, Span.shift_zero]
  shift_shift d m n := by
    show Declarator.mk d.name (Placed.shift (Placed.shift d.initializer m) n) _ = Declarator.mk d.name _ _
    rw [LawfulPlaced.shift_shift]
    exact congrArg _ (Span.shift_shift d.span m n)

theorem Stmt.shift_laws :
    (∀ s : Stmt, Nat → s.shift 0 = s ∧ ∀ m n, (s.shift m).shift n = s.shift (m + n)) ∧
    (∀ o : Option Stmt, Nat → shiftOption o 0 = o ∧
      ∀ m n, shiftOption (shiftOption o m) n = shiftOption o (m + n)) ∧
    (∀ l : List Stmt, Nat → shiftAll l 0 = l ∧ ∀ m n, shiftAll (shiftAll l m) n = shiftAll l (m + n)) := by
  have hexpr : (∀ e : Expr, e.shift 0 = e) ∧ ∀ (e : Expr) m n, (e.shift m).shift n = e.shift (m + n) :=
    ⟨LawfulPlaced.shift_zero, LawfulPlaced.shift_shift⟩
  apply Stmt.shift.mutual_induct (fun s _ => s.shift 0 = s ∧ ∀ m n, (s.shift m).shift n = s.shift (m + n))
    (fun o _ => shiftOption o 0 = o ∧ ∀ m n, shiftOption (shiftOption o m) n = shiftOption o (m + n))
    (fun l _ => shiftAll l 0 = l ∧ ∀ m n, shiftAll (shiftAll l m) n = shiftAll l (m + n))
  all_goals
    intros
    simp_all [Stmt.shift, Stmt.shiftAll, Stmt.shiftOption]

instance : LawfulPlaced Stmt := ⟨fun s => (Stmt.shift_laws.1 s 0).1, fun s => (Stmt.shift_laws.1 s 0).2⟩

end HostScript
