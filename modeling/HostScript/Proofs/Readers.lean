import HostScript.Syntax.Units

/-!
# Readers and what they do to a cursor

A reader takes tokens from the front of a cursor (`Cursor.Onward`) or gets stuck at one of them or at their end
(`Cursor.Stopped`). The equations here say what the primitive readers do, and bring the larger readers into the form
in which they are reasoned about.

Reading goes back in four places: at a parenthesis that turns out to open no cast, at a statement that turns out to
declare nothing, and twice at the clauses of a loop. Each of them is an `attempt`: a reader of a head that never
fails tells what comes next, and then reading goes on after the head or starts over from before it.
-/

set_option autoImplicit false

namespace HostScript

/-- The offset after some tokens have been taken from an offset on. -/
def lastStop (offset : Nat) (taken : List Token) : Nat :=
  taken.foldl (fun _ t => t.span.stop) offset

theorem lastStop_append (offset : Nat) (l l' : List Token) :
    lastStop offset (l ++ l') = lastStop (lastStop offset l) l' := List.foldl_append

namespace Cursor

/-- The cursor after the end of the tokens has been looked at. -/
def meet (c : Cursor) : Cursor := { c with met := true }

/-- The cursor gets from one place to a later one by taking tokens. -/
structure Onward (taken : List Token) (c c' : Cursor) : Prop where
  rest : c.rest = taken ++ c'.rest
  consumed : c'.consumed = lastStop c.consumed taken
  ending : c'.ending = c.ending
  met : c.met = true → c'.met = true

/-- A reader that started at a cursor is stuck at one of its tokens, or at their end. -/
structure Stopped (c : Cursor) (s : Stuck) (c' : Cursor) : Prop where
  rest : c'.rest <:+ c.rest
  ending : c'.ending = c.ending
  met : c.met = true → c'.met = true
  token : s.token ∈ c.rest ∨ s.token.kind = .eof ∧ c'.met = true

variable {c c' c'' : Cursor} {taken taken' : List Token} {s : Stuck}

namespace Onward

theorem refl (c : Cursor) : c.Onward [] c := ⟨rfl, rfl, rfl, id⟩

theorem meet (c : Cursor) : c.Onward [] c.meet := ⟨rfl, rfl, rfl, fun _ => rfl⟩

theorem thenMeet (h : c.Onward taken c') : c.Onward taken c'.meet := ⟨h.rest, h.consumed, h.ending, fun _ => rfl⟩

theorem trans (h : c.Onward taken c') (h' : c'.Onward taken' c'') : c.Onward (taken ++ taken') c'' where
  rest := by rw [h.rest, h'.rest, List.append_assoc]
  consumed := by rw [h'.consumed, h.consumed, lastStop_append]
  ending := h'.ending.trans h.ending
  met := h'.met ∘ h.met

theorem suffix (h : c.Onward taken c') : c'.rest <:+ c.rest := ⟨taken, h.rest.symm⟩

/-- The place where an attempt started, with what has been looked at since. -/
theorem place (h : c.Onward taken c') : c.Onward [] { c with met := c'.met } := ⟨rfl, rfl, rfl, h.met⟩

end Onward

theorem Stopped.after (h : c.Onward taken c') (hs : c'.Stopped s c'') : c.Stopped s c'' where
  rest := hs.rest.trans h.suffix
  ending := hs.ending.trans h.ending
  met := hs.met ∘ h.met
  token := hs.token.imp_left fun ht => h.suffix.subset ht

end Cursor

/-- A token that is ahead, unless it stands for the end. -/
def Token.ahead (t : Token) : List Token := if t.kind.isEof then [] else [t]

theorem Token.Kind.isEof_eq_false {k : Token.Kind} (h : k ≠ .eof) : k.isEof = false := by
  cases k with
  | eof => exact absurd rfl h
  | _ => rfl

theorem Token.ahead_eq {t : Token} (h : t.kind ≠ .eof) : t.ahead = [t] := by
  rw [ahead, Kind.isEof_eq_false h]
  rfl

theorem Token.ahead_prefix (t : Token) (ts : List Token) : t.ahead <+: t :: ts := by
  unfold ahead
  split
  · exact List.nil_prefix
  · exact ⟨ts, rfl⟩

namespace Token.Kind

variable {k : Token.Kind}

theorem eq_mark {m : Mark} (h : k.isMark m) : k = .mark m := by
  cases k with
  | mark m' => exact congrArg _ (of_decide_eq_true h)
  | _ => cases h

theorem eq_identifier (h : k.isIdentifier) : k = .identifier := by
  cases k with
  | identifier => rfl
  | _ => cases h

theorem eq_keyword {word : Keyword} (h : k.isKeyword word) : k = .keyword word := by
  cases k with
  | keyword word' => exact congrArg _ (of_decide_eq_true h)
  | _ => cases h

theorem ne_eof_of_some {α : Type} {g : Token.Kind → Option α} {a : α} (h : g k = some a) (heof : g .eof = none) :
    k ≠ .eof := by
  rintro rfl
  cases heof.symm.trans h

theorem ne_eof_of_isTypeWord (h : k.isTypeWord) : k ≠ .eof := by
  rintro rfl
  cases h

end Token.Kind

namespace Read

variable {α β : Type} {c : Cursor} {t u : Token} {ts : List Token} {c' : Cursor} {x : Read α}

/-! ## Primitive readers -/

@[simp] theorem kind_endToken (e : Token.Ending) : e.token.kind = .eof := by
  cases e <;> rfl

@[simp] theorem ahead_endToken (e : Token.Ending) : e.token.ahead = [] := by
  cases e <;> rfl

theorem bind_ok {a : α} (h : x c = .ok a c') (f : α → Read β) : (x >>= f) c = f a c' := by
  show EStateM.bind x f c = f a c'
  simp only [EStateM.bind, h]

theorem bind_error {s : Stuck} (h : x c = .error s c') (f : α → Read β) : (x >>= f) c = .error s c' := by
  show EStateM.bind x f c = .error s c'
  simp only [EStateM.bind, h]

theorem peek_bind_cons (h : c.rest = t :: ts) (f : Token → Read β) : (peek >>= f) c = f t c := by
  show EStateM.bind peek f c = f t c
  simp only [EStateM.bind, peek, h]

theorem peek_bind_nil (h : c.rest = []) (f : Token → Read β) :
    (peek >>= f) c = f c.ending.token c.meet := by
  show EStateM.bind peek f c = f c.ending.token c.meet
  simp only [EStateM.bind, peek, h, Cursor.meet]

theorem peekSecond_bind_cons (h : c.rest = t :: u :: ts) (f : Token → Read β) : (peekSecond >>= f) c = f u c := by
  show EStateM.bind peekSecond f c = f u c
  simp only [EStateM.bind, peekSecond, h]

theorem peekSecond_bind_end (h : c.rest.tail = []) (f : Token → Read β) :
    (peekSecond >>= f) c = f c.ending.token c.meet := by
  show EStateM.bind peekSecond f c = f c.ending.token c.meet
  rcases hrest : c.rest with _ | ⟨t, _ | ⟨u, ts⟩⟩
  · simp only [EStateM.bind, peekSecond, hrest, Cursor.meet]
  · simp only [EStateM.bind, peekSecond, hrest, Cursor.meet]
  · rw [hrest] at h
    cases h

theorem advance_bind_cons (h : c.rest = t :: ts) (f : Token → Read β) :
    (advance >>= f) c = f t { c with rest := ts, consumed := t.span.stop } := by
  show EStateM.bind advance f c = _
  simp only [EStateM.bind, advance, h]

theorem onward_advance (h : c.rest = t :: ts) :
    c.Onward [t] { c with rest := ts, consumed := t.span.stop } := ⟨h, rfl, rfl, id⟩

theorem fail_bind (cause : SyntaxCause) (f : α → Read β) : (fail cause >>= f) = fail cause := by
  funext c
  cases h : c.rest with
  | nil =>
    show EStateM.bind (EStateM.bind peek _) f c = EStateM.bind peek _ c
    simp only [EStateM.bind, peek, h]
    rfl
  | cons t ts =>
    show EStateM.bind (EStateM.bind peek _) f c = EStateM.bind peek _ c
    simp only [EStateM.bind, peek, h]
    rfl

/-- What is stuck is stuck at the next token, or at the end. -/
theorem fail_stopped (cause : SyntaxCause) (c : Cursor) :
    ∃ s c', (fail cause : Read α) c = .error s c' ∧ c.Stopped s c' := by
  cases h : c.rest with
  | nil => exact ⟨_, _, peek_bind_nil h _, List.suffix_rfl, rfl, fun _ => rfl, .inr ⟨kind_endToken _, rfl⟩⟩
  | cons t ts => exact ⟨_, _, peek_bind_cons h _, List.suffix_rfl, rfl, id, .inl (h ▸ List.mem_cons_self)⟩

theorem nextIs_bind (m : Mark) (f : Bool → Read β) :
    (nextIs m >>= f) = peek >>= fun t => f (t.kind.isMark m) := by
  simp only [nextIs, bind_assoc, pure_bind]

theorem accept_bind (m : Mark) (f : Bool → Read β) :
    (accept m >>= f) = nextIs m >>= fun b => if b then advance >>= fun _ => f true else f false := by
  simp only [accept, bind_assoc]
  congr 1
  funext b
  cases b <;> simp

theorem acceptKeyword_bind (k : Keyword) (f : Bool → Read β) :
    (acceptKeyword k >>= f) =
      peek >>= fun t => if t.kind.isKeyword k then advance >>= fun _ => f true else f false := by
  simp only [acceptKeyword, bind_assoc]
  congr 1
  funext t
  cases t.kind.isKeyword k <;> simp

theorem expect_bind (m : Mark) (cause : SyntaxCause) (f : Token → Read β) :
    (expect m cause >>= f) = nextIs m >>= fun b => if b then advance >>= f else fail cause := by
  simp only [expect, bind_assoc]
  congr 1
  funext b
  cases b <;> simp [fail_bind]

theorem expectIdentifier_bind (cause : SyntaxCause) (f : Token → Read β) :
    (expectIdentifier cause >>= f) =
      peek >>= fun t => if t.kind.isIdentifier then advance >>= f else fail cause := by
  simp only [expectIdentifier, bind_assoc]
  congr 1
  funext t
  cases t.kind.isIdentifier <;> simp [fail_bind]

theorem identifierThen_bind (m : Mark) (f : Bool → Read β) :
    (identifierThen m >>= f) = peek >>= fun t =>
      if t.kind.isIdentifier then peekSecond >>= fun u => f (u.kind.isMark m) else f false := by
  simp only [identifierThen, bind_assoc]
  congr 1
  funext t
  cases t.kind.isIdentifier <;> simp

/-! ## Pairs of tokens -/

/-- Pairs of tokens, of which the second adds to what was read before. -/
def pairs (opens follows : Token.Kind → Bool) (add : α → Token → α) : Nat → α → Read α
  | 0, a => pure a
  | budget + 1, a => do
    if opens (← peek).kind then
      if follows (← peekSecond).kind then
        let _ ← advance
        let second ← advance
        pairs opens follows add budget (add a second)
      else
        return a
    else
      return a

theorem dottedTail_eq_pairs (budget : Nat) (name : String) :
    dottedTail budget name =
      pairs (·.isMark .dot) (·.isIdentifier) (fun name segment => s!"{name}.{segment.lexeme}") budget name := by
  induction budget generalizing name with
  | zero => rfl
  | succ budget ih => simp only [dottedTail, pairs, ih]

theorem dimensions_eq_pairs (budget dims : Nat) :
    dimensions budget dims =
      pairs (·.isMark .lbracket) (·.isMark .rbracket) (fun dims _ => dims + 1) budget dims := by
  induction budget generalizing dims with
  | zero => rfl
  | succ budget ih => simp only [dimensions, pairs, ih, nextIs_bind]

/-- What is asked of the kinds of tokens that form pairs: the first is a point or an opening bracket, and the
second is a token that exists. -/
structure PairKinds (opens follows : Token.Kind → Bool) : Prop where
  dangles : ∀ k, opens k → k = .mark .dot ∨ k = .mark .lbracket
  exists_follows : ∃ k, follows k
  follows_eof : follows .eof = false

namespace PairKinds

theorem dots : PairKinds (·.isMark .dot) (·.isIdentifier) :=
  ⟨fun _ hk => .inl (Token.Kind.eq_mark hk), ⟨.identifier, rfl⟩, rfl⟩

theorem dims : PairKinds (·.isMark .lbracket) (·.isMark .rbracket) :=
  ⟨fun _ hk => .inr (Token.Kind.eq_mark hk), ⟨.mark .rbracket, rfl⟩, rfl⟩

theorem opens_eof {opens follows : Token.Kind → Bool} (h : PairKinds opens follows) : ¬ opens .eof := by
  intro ho
  rcases h.dangles _ ho with h | h <;> cases h

end PairKinds

section Pairs

variable {opens follows : Token.Kind → Bool} {add : α → Token → α} {b : Nat} {a : α}

theorem pairs_nil (hp : PairKinds opens follows) (h : c.rest = []) :
    pairs opens follows add (b + 1) a c = .ok a c.meet := by
  rw [pairs, peek_bind_nil h, kind_endToken, if_neg hp.opens_eof]
  rfl

theorem pairs_closed (h : c.rest = t :: ts) (ho : ¬ opens t.kind) :
    pairs opens follows add (b + 1) a c = .ok a c := by
  rw [pairs, peek_bind_cons h, if_neg ho]
  rfl

theorem pairs_single (hp : PairKinds opens follows) (h : c.rest = [t]) (ho : opens t.kind) :
    pairs opens follows add (b + 1) a c = .ok a c.meet := by
  rw [pairs, peek_bind_cons h, if_pos ho, peekSecond_bind_end (by rw [h]; rfl), kind_endToken, hp.follows_eof]
  rfl

theorem pairs_other (h : c.rest = t :: u :: ts) (ho : opens t.kind) (hf : ¬ follows u.kind) :
    pairs opens follows add (b + 1) a c = .ok a c := by
  rw [pairs, peek_bind_cons h, if_pos ho, peekSecond_bind_cons h, if_neg hf]
  rfl

theorem pairs_pair (h : c.rest = t :: u :: ts) (ho : opens t.kind) (hf : follows u.kind) :
    pairs opens follows add (b + 1) a c =
      pairs opens follows add b (add a u) { c with rest := ts, consumed := u.span.stop } := by
  rw [pairs, peek_bind_cons h, if_pos ho, peekSecond_bind_cons h, if_pos hf, advance_bind_cons h,
    advance_bind_cons rfl]

theorem onward_pair (h : c.rest = t :: u :: ts) :
    c.Onward [t, u] { c with rest := ts, consumed := u.span.stop } := ⟨h, rfl, rfl, id⟩

end Pairs

/-! ## Parameters -/

/-- What is left of a parameter after its type. -/
def paramName (first : Token) (type : TypeName) : Read (Option Param) := do
  if (← peek).kind.isIdentifier then
    let name ← advance
    return some ⟨name.lexeme, some type, name.span⟩
  else if type.dims = 0 && !type.name.contains '.' && (Kind.ofName? type.name).isNone then
    return some ⟨type.name, none, first.span⟩
  else
    return none

theorem param?_eq (budget : Nat) :
    param? budget = peek >>= fun first =>
      typeName? budget >>= fun type? => type?.elim (pure none) (paramName first) := by
  unfold param?
  congr 1
  funext first
  congr 1
  funext type?
  cases type? <;> rfl

/-- What is left of a parameter list after a parameter. -/
def paramsAfter (depth budget : Nat) (param : Param) : Read (Option (List Param)) := do
  if ← accept .rparen then
    return some [param]
  else if ← accept .comma then
    return (← paramTail? depth budget).map (param :: ·)
  else
    return none

theorem paramTail?_succ (depth budget : Nat) :
    paramTail? depth (budget + 1) =
      param? depth >>= fun param? => param?.elim (pure none) (paramsAfter depth budget) := by
  show (param? depth >>= _) = _
  congr 1
  funext param?
  cases param? <;> rfl

/-! ## Attempts -/

/-- Reads a head, and then goes on after it, or goes back if it is none. -/
def attempt {η : Type} (head : Read (Option η)) (other : Read β) (go : η → Read β) : Read β :=
  get >>= fun place => head >>= fun head? => head?.elim (rewind place >>= fun _ => other) go

/-- What comes after the type in a parenthesis. -/
def castClose (opening : Token) (primitive : Bool) (type : TypeName) : Read (Option (Token × TypeName)) := do
  if ← accept .rparen then
    if (← peek).kind.startsCastOperand primitive then return some (opening, type) else return none
  else
    return none

/-- Reads as far as it takes to tell a cast. -/
def castHead (budget : Nat) : Read (Option (Token × TypeName)) := do
  let opening ← advance
  let first ← peek
  let type? ← typeName? budget
  type?.elim (return none) (castClose opening first.kind.isTypeWord)

/-- The operand of a cast. -/
def castOperand (again : Goal → Read Expr) (head : Token × TypeName) : Read Expr := do
  let operand ← again .unary
  return .cast (head.1.span.to operand.span) head.2 operand

theorem cast?_bind (budget : Nat) (again : Goal → Read Expr) (other : Read Expr) :
    (cast? budget again >>= fun e? => e?.elim other pure) = attempt (castHead budget) other (castOperand again) := by
  unfold cast? castHead attempt
  simp only [bind_assoc]
  congr 1; funext place
  congr 1; funext opening
  congr 1; funext first
  congr 1; funext type?
  cases type? with
  | none => rfl
  | some type =>
    simp only [Option.elim_some, castClose, bind_assoc]
    congr 1; funext closed
    cases closed with
    | false => rfl
    | true =>
      simp only [if_true, bind_assoc]
      congr 1; funext next
      by_cases hnext : next.kind.startsCastOperand first.kind.isTypeWord
      · simp only [if_pos hnext, bind_assoc, pure_bind]
        rfl
      · rw [if_neg hnext, if_neg hnext]
        rfl

/-- What a unary expression is that no operator announces. -/
def castOrStepped (budget : Nat) (again : Goal → Read Expr) (kind : Token.Kind) : Read Expr :=
  if kind.isMark .lparen then attempt (castHead budget) (stepped budget again) (castOperand again)
  else stepped budget again

theorem unary_eq (budget : Nat) (again : Goal → Read Expr) :
    unary budget again = peek >>= fun t => t.kind.unary?.elim
      (t.kind.step?.elim (castOrStepped budget again t.kind) fun step => advance >>= fun mark =>
        again .unary >>= fun target => pure (.preStep (mark.span.to target.span) step target))
      fun op => advance >>= fun mark =>
        again .unary >>= fun operand => pure (.unary (mark.span.to operand.span) op operand) := by
  unfold unary
  congr 1; funext t
  dsimp only
  cases t.kind.unary? with
  | some op => rfl
  | none =>
    cases t.kind.step? with
    | some step => rfl
    | none =>
      dsimp only [Option.elim_none]
      unfold castOrStepped
      rw [← cast?_bind]
      congr 1
      congr 1; funext e?
      cases e? <;> rfl

/-- What a statement declares that starts with a type or a name; its parameters may be faulty. -/
inductive DeclHead where
  | method (start : Span) (name : String) (params : List Param) (returns : Option TypeName)
  | locals (start : Span) (type : TypeName)
  | faulty

/-- A method without a type needs its body, or it is a call. -/
def untypedHead (start : Span) (name : String) (params : List Param) : Read (Option DeclHead) := do
  if ← nextIs .lbrace then return some (.method start name params none) else return none

/-- After its type a declaration needs a name, and the token after the name says what is declared. -/
def typedHead (budget : Nat) (start : Span) (type : TypeName) : Read (Option DeclHead) := do
  if (← peek).kind.isIdentifier then
    if (← peekSecond).kind.isMark .lparen then
      let name ← advance
      let params? ← paramList? budget
      return some (params?.elim .faulty fun params => .method start name.lexeme params (some type))
    else
      return some (.locals start type)
  else
    return none

/-- Reads as far as it takes to tell a declaration. -/
def declHead (budget : Nat) : Read (Option DeclHead) := do
  let first ← peek
  if ← identifierThen .lparen then
    let name ← advance
    let params? ← paramList? budget
    params?.elim (pure none) (untypedHead first.span name.lexeme)
  else
    let type? ← typeName? budget
    type?.elim (pure none) (typedHead budget first.span)

/-- What is left of a declaration after its head. -/
def declared (budget : Nat) (again : Read Stmt) : DeclHead → Read Stmt
  | .method start name params returns => methodBody budget again start name params returns
  | .locals start type => do
    let declarators ← separated (declarator budget type) budget
    let close ← expect .semicolon .semicolonAfterDeclaration
    return .declaration (start.to close.span) type declarators
  | .faulty => fail .parameterList

theorem declaration?_bind (budget : Nat) (again : Read Stmt) (other : Read Stmt) :
    (declaration? budget again >>= fun declared? => declared?.elim other pure) =
      attempt (declHead budget) other (declared budget again) := by
  unfold declaration? declHead attempt
  simp only [bind_assoc]
  congr 1; funext place
  congr 1; funext first
  congr 1; funext called
  cases called with
  | true =>
    simp only [if_true, bind_assoc]
    congr 1; funext name
    congr 1; funext params?
    cases params? with
    | none => rfl
    | some params =>
      simp only [Option.elim_some, untypedHead, bind_assoc]
      congr 1; funext opens
      cases opens with
      | false => rfl
      | true => simp [declared]
  | false =>
    simp only [Bool.false_eq_true, if_false, bind_assoc]
    congr 1; funext type?
    cases type? with
    | none => rfl
    | some type =>
      simp only [Option.elim_some, typedHead, bind_assoc]
      congr 1; funext next
      cases next.kind.isIdentifier with
      | false => rfl
      | true =>
        simp only [if_true, bind_assoc]
        congr 1; funext second
        cases second.kind.isMark .lparen with
        | true =>
          simp only [if_true, bind_assoc]
          congr 1; funext name
          congr 1; funext params?
          cases params? with
          | none =>
            simp only [Option.elim_none, Option.elim_some, pure_bind, declared]
            rw [fail_bind]
          | some params => simp [declared]
        | false =>
          simp only [Bool.false_eq_true, if_false, variableDeclaration, bind_assoc, pure_bind,
            Option.elim_some, declared]
          rfl

/-- The name of a loop over items with its colon. -/
def eachColon (type? : Option TypeName) : Read (Option (Option TypeName × String)) := do
  let name ← advance
  let _ ← advance
  return some (type?, name.lexeme)

/-- Reads as far as it takes to tell a loop over items. -/
def eachHead (budget : Nat) : Read (Option (Option TypeName × String)) := do
  if ← identifierThen .colon then
    eachColon none
  else
    let type? ← typeName? budget
    type?.elim (pure none) fun type => do
      if ← identifierThen .colon then eachColon (some type) else return none

/-- What a loop over items reads after its colon. -/
def itemLoop (budget : Nat) (again : Read Stmt) (start : Span) (head : Option TypeName × String) : Read Stmt := do
  let iterable ← expression budget
  let _ ← expect .rparen .parenAfterIterable
  let body ← again
  return .forEach (start.to body.span) head.1 head.2 iterable body

/-- What a counting loop reads from its last clause on. -/
def loopUpdate (budget : Nat) (again : Read Stmt) (start : Span) (init : List Stmt) (test : Option Expr) :
    Read Stmt := do
  let update ←
    if ← nextIs .rparen then pure []
    else separated (expression budget) budget
  let _ ← expect .rparen .parenAfterClauses
  let body ← again
  return .forLoop (start.to body.span) init test update body

/-- What a counting loop reads after its parenthesis. -/
def countingLoop (budget : Nat) (again : Read Stmt) (start : Span) : Read Stmt := do
  let init ← forInit budget
  let _ ← expect .semicolon .semicolonAfterInitializer
  let test ←
    if ← nextIs .semicolon then pure none
    else pure (some (← expression budget))
  let _ ← expect .semicolon .semicolonAfterForCondition
  loopUpdate budget again start init test

theorem forStatement_eq (budget : Nat) (again : Read Stmt) :
    forStatement budget again = advance >>= fun first => expect .lparen .parenAfterFor >>= fun _ =>
      attempt (eachHead budget) (countingLoop budget again first.span) (itemLoop budget again first.span) := by
  unfold forStatement forEachHead? eachHead attempt
  simp only [bind_assoc]
  congr 1; funext first
  congr 1; funext _
  congr 1; funext place
  congr 1; funext named
  cases named with
  | true => simp [eachColon, itemLoop]
  | false =>
    simp only [Bool.false_eq_true, if_false, bind_assoc]
    congr 1; funext type?
    cases type? with
    | none => rfl
    | some type =>
      simp only [Option.elim_some, bind_assoc]
      congr 1; funext named
      cases named with
      | true => simp [eachColon, itemLoop]
      | false => rfl

/-- Reads as far as it takes to tell whether a loop declares variables. -/
def forHead (budget : Nat) : Read (Option (Span × TypeName)) := do
  let first ← peek
  let type? ← typeName? budget
  type?.elim (pure none) fun type => do
    if (← peek).kind.isIdentifier then return some (first.span, type) else return none

/-- The expressions of the first clause of a counting loop. -/
def forValues (budget : Nat) : Read (List Stmt) := do
  let values ← separated (expression budget) budget
  return values.map fun value => .expr value.span value

/-- The variables of the first clause of a counting loop after their type. -/
def forVariables (budget : Nat) (head : Span × TypeName) : Read (List Stmt) := do
  return [← variableDeclaration budget head.1 head.2]

theorem forInit_eq (budget : Nat) :
    forInit budget = nextIs .semicolon >>= fun empty =>
      if empty then pure [] else attempt (forHead budget) (forValues budget) (forVariables budget) := by
  unfold forInit attempt forHead
  congr 1; funext empty
  congr 1
  congr 1; funext place
  simp only [bind_assoc]
  congr 1; funext first
  congr 1; funext type?
  cases type? with
  | none => rfl
  | some type =>
    simp only [Option.elim_some, bind_assoc, Option.isSome_some, if_true, pure_bind]
    congr 1; funext next
    cases next.kind.isIdentifier <;> rfl

/-! ## Statements -/

/-- What is left of an `if` after its first branch: the second branch, or the statement as it is. -/
def elseBranch (no : Read Stmt) (whole : Stmt) : Read Stmt := do
  if ← acceptKeyword .elseWord then no else return whole

/-- A statement that no keyword or mark announces. -/
def plainStatement (budget : Nat) (again : Read Stmt) (kind : Token.Kind) : Read Stmt :=
  if kind.isTypeWord || kind.isIdentifier then
    attempt (declHead budget) (expressionStatement budget) (declared budget again)
  else
    expressionStatement budget

/-- The statement that a token of kind `kind` announces. -/
def announced (budget : Nat) (again : Read Stmt) : Token.Kind → Read Stmt
  | .keyword .ifWord => ifStatement budget again
  | .keyword .whileWord => whileStatement budget again
  | .keyword .doWord => doStatement budget again
  | .keyword .forWord => forStatement budget again
  | .keyword .returnWord => returnStatement budget
  | .keyword .breakWord => do
    let start := (← advance).span
    let close ← expect .semicolon .semicolonAfterBreak
    return .breakLoop (start.to close.span)
  | .keyword .continueWord => do
    let start := (← advance).span
    let close ← expect .semicolon .semicolonAfterContinue
    return .continueLoop (start.to close.span)
  | .keyword .importWord => importStatement budget
  | .mark .lbrace => do
    let (body, span) ← block budget again
    return .block span body
  | .mark .semicolon => return .empty (← advance).span
  | kind => plainStatement budget again kind

theorem statementWith_eq (budget : Nat) (again : Read Stmt) :
    statementWith budget again = peek >>= fun t => announced budget again t.kind := by
  unfold statementWith announced plainStatement
  congr 1; funext t
  dsimp only
  congr 1; funext _
  rw [← declaration?_bind]
  congr 2; funext declared?
  cases declared? <;> rfl

end Read

/-! ## What readers take

A run of a reader takes tokens from the front and gives something that can be said of them and of those that come
after them (`Post`), or it is stuck (`Sure`). `Takes` says so of all runs of a reader that start before some known
tokens, and is closed under sequencing. -/

/-- What is said of a result, the tokens that were taken for it and those that come after them. -/
abbrev Post (α : Type) := α → List Token → List Token → Prop

/-- What holds of the first token, if there is one. -/
def First (p : Token → Prop) (ts : List Token) : Prop := ∀ t ∈ ts.head?, p t

@[simp] theorem first_nil (p : Token → Prop) : First p [] := by
  simp [First]

@[simp] theorem first_cons {p : Token → Prop} {t : Token} {ts : List Token} : First p (t :: ts) ↔ p t := by
  simp [First]

/-- A run that takes tokens of which something can be said, or gets stuck at a token that it had before it. -/
inductive Sure {α : Type} (Q : Post α) (c : Cursor) : Read.Result α → Prop
  | ok {a : α} {c' : Cursor} (taken : List Token) (h : c.Onward taken c') (hQ : Q a taken c'.rest) :
      Sure Q c (.ok a c')
  | error {s : Stuck} {c' : Cursor} (h : c.Stopped s c') : Sure Q c (.error s c')

/-- All runs of a reader where the given tokens come first. -/
structure Takes {α : Type} (l : List Token) (x : Read α) (Q : Post α) : Prop where
  run : ∀ c : Cursor, l <+: c.rest → Sure Q c (x c)

section Rules

variable {α β : Type} {c c' : Cursor} {taken : List Token} {P : Post α} {Q : Post β}
  {r : Read.Result β}

theorem Sure.imp {P' : Post α} {r : Read.Result α} (hr : Sure P c r)
    (h : ∀ a ts rest, P a ts rest → P' a ts rest) : Sure P' c r := by
  cases hr with
  | ok taken hc hP => exact .ok taken hc (h _ _ _ hP)
  | error hs => exact .error hs

theorem Sure.after (h : c.Onward taken c')
    (hr : Sure (fun b ts rest => Q b (taken ++ ts) rest) c' r) : Sure Q c r := by
  cases hr with
  | ok taken' h' hQ => exact .ok _ (h.trans h') hQ
  | error hs => exact .error (hs.after h)

/-- Where nothing was taken, what was looked at does not matter. -/
theorem Sure.from (h : c.Onward [] c') (hr : Sure Q c' r) : Sure Q c r :=
  hr.after h

namespace Takes

open Read

variable {l : List Token} {x : Read α} {f : α → Read β} {t : Token}

theorem imp {P' : Post α} (h : Takes l x P) (hP : ∀ a ts rest, P a ts rest → P' a ts rest) : Takes l x P' :=
  ⟨fun c hc => (h.run c hc).imp hP⟩

theorem known (h : Takes [] x P) : Takes l x P := ⟨fun c _ => h.run c List.nil_prefix⟩

theorem pure {a : α} (h : ∀ rest, l <+: rest → P a [] rest) : Takes l (Pure.pure a) P :=
  ⟨fun c hc => .ok [] (.refl c) (h _ hc)⟩

theorem fail (cause : SyntaxCause) : Takes l (Read.fail cause) P := by
  refine ⟨fun c _ => ?_⟩
  obtain ⟨s, c', hc, hs⟩ := fail_stopped (α := α) cause c
  rw [hc]
  exact .error hs

theorem bind (hx : Takes l x P)
    (hf : ∀ a, Takes [] (f a) fun b ts rest => ∀ us, P a us (ts ++ rest) → Q b (us ++ ts) rest) :
    Takes l (x >>= f) Q := by
  refine ⟨fun c hc => ?_⟩
  have h := hx.run c hc
  show Sure Q c (EStateM.bind x f c)
  unfold EStateM.bind
  generalize x c = r at h
  cases h with
  | @ok a c' us hc' hP =>
    have h := (hf a).run c' List.nil_prefix
    dsimp only
    generalize f a c' = r at h
    cases h with
    | ok ts hc'' hQ => exact .ok _ (hc'.trans hc'') (hQ us (hc''.rest ▸ hP))
    | error hs => exact .error (hs.after hc')
  | error hs => exact .error hs

/-- A result that is made of what was read. -/
theorem map {F : α → β} (hx : Takes l x P) (hQ : ∀ a ts rest, P a ts rest → Q (F a) ts rest) :
    Takes l (x >>= fun a => Pure.pure (F a)) Q := by
  refine hx.bind fun a => .pure fun rest _ us hus => ?_
  rw [List.append_nil]
  exact hQ a us rest hus

/-- Reading goes on after a head, or starts in another way from before it. -/
theorem attempt {η : Type} {head : Read (Option η)} {other : Read β} {go : η → Read β} {H : Post (Option η)}
    (hhead : Takes l head H)
    (hgo : ∀ w, Takes [] (go w) fun b ts rest => ∀ us, H (some w) us (ts ++ rest) → Q b (us ++ ts) rest)
    (hother : Takes l other Q) : Takes l (Read.attempt head other go) Q := by
  refine ⟨fun c hc => ?_⟩
  have h := hhead.run c hc
  show Sure Q c (EStateM.bind head _ c)
  unfold EStateM.bind
  generalize head c = r at h
  cases h with
  | @ok head? c' us hc' hH =>
    cases head? with
    | none => exact (hother.run { c with met := c'.met } hc).from hc'.place
    | some w =>
      have h := (hgo w).run c' List.nil_prefix
      dsimp only [Option.elim_some]
      generalize go w c' = r at h
      cases h with
      | ok ts hc'' hQ => exact .ok _ (hc'.trans hc'') (hQ us (hc''.rest ▸ hH))
      | error hs => exact .error (hs.after hc')
  | error hs => exact .error hs

section Tokens

variable {f : Token → Read β}

/-- Taking the next token, which is known. -/
theorem advance (h : Takes l (f t) fun b ts rest => Q b (t :: ts) rest) : Takes (t :: l) (Read.advance >>= f) Q := by
  refine ⟨fun c hc => ?_⟩
  obtain ⟨m, hm⟩ := hc
  rw [advance_bind_cons hm.symm]
  exact (h.run _ ⟨m, rfl⟩).after (onward_advance hm.symm)

/-- Looking at the next token, or at what stands for the end. It is the first of the tokens from there on, if there is
one. -/
theorem peekFirst (h : ∀ t, Takes t.ahead (f t) fun b ts rest => First (· = t) (ts ++ rest) → Q b ts rest) :
    Takes [] (Read.peek >>= f) Q := by
  refine ⟨fun c _ => ?_⟩
  have hstart {c' : Cursor} {t : Token} (hc' : c.Onward [] c') (hl : t.ahead <+: c'.rest)
      (hfirst : First (· = t) c.rest) : Sure Q c (f t c') := by
    have hr := (h t).run c' hl
    generalize f t c' = r at hr
    cases hr with
    | ok ts hc'' hQ => exact .ok ts (hc'.trans hc'') (hQ ((hc'.trans hc'').rest ▸ hfirst))
    | error hs => exact .error (hs.after hc')
  cases hrest : c.rest with
  | nil =>
    rw [peek_bind_nil hrest]
    refine hstart (.meet c) ?_ (hrest ▸ first_nil _)
    rw [ahead_endToken]
    exact List.nil_prefix
  | cons t ts =>
    rw [peek_bind_cons hrest]
    exact hstart (.refl c) (hrest ▸ t.ahead_prefix ts) (hrest ▸ first_cons.2 rfl)

theorem peek (h : ∀ t, Takes t.ahead (f t) Q) : Takes [] (Read.peek >>= f) Q :=
  peekFirst fun t => (h t).imp fun _ _ _ hQ _ => hQ

/-- Looking past the next token, which is known. -/
theorem peekSecond (h : ∀ u, Takes (t :: u.ahead) (f u) Q) : Takes [t] (Read.peekSecond >>= f) Q := by
  refine ⟨fun c hc => ?_⟩
  obtain ⟨m, hm⟩ := hc
  cases m with
  | nil =>
    rw [peekSecond_bind_end (by rw [← hm]; rfl)]
    refine ((h _).run c.meet ?_).from (.meet c)
    rw [ahead_endToken]
    exact ⟨[], hm⟩
  | cons u ts =>
    rw [peekSecond_bind_cons hm.symm]
    refine (h u).run c ?_
    rw [← hm]
    exact (List.prefix_cons_inj t).2 (u.ahead_prefix ts)

end Tokens

end Takes

end Rules

end HostScript
