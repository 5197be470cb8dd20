import HostScript.Proofs.Readers
import Mathlib

/-!
# Heads of declarations and casts

A statement that starts with a type or a name, and an operand that starts with a parenthesis, are told apart by
what comes after their head. The kinds of tokens that can form such a head are given here as a small grammar;
tokens are an unfinished head when more tokens can complete them to one. No token of a head ends a statement.
-/

set_option autoImplicit false

namespace HostScript

/-- Pairs of tokens, each a token of a first kind and one of a second. -/
inductive IsPairs (opens follows : Token.Kind → Bool) : List Token.Kind → Prop
  | none : IsPairs opens follows []
  | pair {k k' : Token.Kind} {r : List Token.Kind} (hk : opens k) (hk' : follows k')
      (h : IsPairs opens follows r) : IsPairs opens follows (k :: k' :: r)

/-- Pairs of brackets. -/
abbrev IsDims : List Token.Kind → Prop := IsPairs (·.isMark .lbracket) (·.isMark .rbracket)

/-- Segments of a dotted name after its first one. -/
abbrev IsDots : List Token.Kind → Prop := IsPairs (·.isMark .dot) (·.isIdentifier)

/-- A type: a primitive type or a dotted name, with its dimensions. -/
inductive IsType : List Token.Kind → Prop
  | word {k : Token.Kind} {dims : List Token.Kind} (hk : k.isTypeWord) (h : IsDims dims) : IsType (k :: dims)
  | named {dots dims : List Token.Kind} (h : IsDots dots) (h' : IsDims dims) : IsType (.identifier :: (dots ++ dims))

/-- A parameter: a type, with or without a name. -/
inductive IsParam : List Token.Kind → Prop
  | untyped {type : List Token.Kind} (h : IsType type) : IsParam type
  | typed {type : List Token.Kind} (h : IsType type) : IsParam (type ++ [.identifier])

/-- One or more parameters, up to the closing parenthesis. -/
inductive IsParams : List Token.Kind → Prop
  | last {param : List Token.Kind} (h : IsParam param) : IsParams (param ++ [.mark .rparen])
  | more {param rest : List Token.Kind} (h : IsParam param) (h' : IsParams rest) :
      IsParams (param ++ .mark .comma :: rest)

/-- A parameter list without its opening parenthesis. -/
inductive IsParamList : List Token.Kind → Prop
  | empty : IsParamList [.mark .rparen]
  | full {params : List Token.Kind} (h : IsParams params) : IsParamList params

/-- What a statement or an operand may start with and is decided by what comes after: a type and a name, a type
in parentheses, or a name with a parameter list, with or without a type before it. -/
inductive IsHead : List Token.Kind → Prop
  | declared {type : List Token.Kind} (h : IsType type) : IsHead (type ++ [.identifier])
  | cast {type : List Token.Kind} (h : IsType type) : IsHead (.mark .lparen :: (type ++ [.mark .rparen]))
  | method {params : List Token.Kind} (h : IsParamList params) : IsHead (.identifier :: .mark .lparen :: params)
  | typedMethod {type params : List Token.Kind} (h : IsType type) (h' : IsParamList params) :
      IsHead (type ++ .identifier :: .mark .lparen :: params)

/-- Tokens that can be completed to the head of a declaration or to a cast. -/
def Unfinished (tail : List Token) : Prop := ∃ more, IsHead (tail.map Token.kind ++ more)

/-- A token that ends a statement. -/
def Token.Kind.closes (k : Token.Kind) : Bool := k.isMark .semicolon || k.isMark .rbrace

/-- No token of these ends a statement. -/
def Endless (l : List Token.Kind) : Prop := ∀ k ∈ l, k.closes = false

section Endless

variable {l l' : List Token.Kind} {k : Token.Kind}

@[simp] theorem endless_nil : Endless [] := by simp [Endless]

@[simp] theorem endless_cons : Endless (k :: l) ↔ k.closes = false ∧ Endless l := by
  simp [Endless]

@[simp] theorem endless_append : Endless (l ++ l') ↔ Endless l ∧ Endless l' := by
  simp [Endless, or_imp, forall_and]

@[simp] theorem closes_identifier : Token.Kind.identifier.closes = false := by
  simp [Token.Kind.closes, Token.Kind.isMark]

@[simp] theorem closes_mark (m : Mark) : (Token.Kind.mark m).closes = (m = .semicolon || m = .rbrace) := by
  simp [Token.Kind.closes, Token.Kind.isMark]

theorem closes_of_isTypeWord (h : k.isTypeWord) : k.closes = false := by
  cases k with
  | keyword w => rfl
  | _ => cases h

theorem IsPairs.endless {opens follows : Token.Kind → Bool} (h : IsPairs opens follows l)
    (hopens : ∀ k, opens k → k.closes = false) (hfollows : ∀ k, follows k → k.closes = false) : Endless l := by
  induction h with
  | none => simp
  | pair hk hk' _ ih => exact endless_cons.2 ⟨hopens _ hk, endless_cons.2 ⟨hfollows _ hk', ih⟩⟩

theorem IsDims.endless (h : IsDims l) : Endless l :=
  IsPairs.endless h (fun _ hk => Token.Kind.eq_mark hk ▸ rfl) fun _ hk => Token.Kind.eq_mark hk ▸ rfl

theorem IsDots.endless (h : IsDots l) : Endless l :=
  IsPairs.endless h (fun _ hk => Token.Kind.eq_mark hk ▸ rfl) fun _ hk => Token.Kind.eq_identifier hk ▸ rfl

theorem IsType.endless (h : IsType l) : Endless l := by
  cases h with
  | word hk h => exact endless_cons.2 ⟨closes_of_isTypeWord hk, IsDims.endless h⟩
  | named h h' => simpa using ⟨IsDots.endless h, IsDims.endless h'⟩

theorem IsParam.endless (h : IsParam l) : Endless l := by
  cases h with
  | untyped h => exact h.endless
  | typed h => simpa using h.endless

theorem IsParams.endless (h : IsParams l) : Endless l := by
  induction h with
  | last h => simpa using h.endless
  | more h _ ih => simpa using ⟨h.endless, ih⟩

theorem IsParamList.endless (h : IsParamList l) : Endless l := by
  cases h with
  | empty => simp
  | full h => exact h.endless

theorem IsHead.endless (h : IsHead l) : Endless l := by
  cases h with
  | declared h => simpa using h.endless
  | cast h => simpa using h.endless
  | method h => simpa using h.endless
  | typedMethod h h' => simpa using ⟨h.endless, h'.endless⟩

end Endless

/-- A statement cannot end within an unfinished head. -/
theorem Unfinished.not_closes {tail : List Token} (h : Unfinished tail) : ∀ t ∈ tail, t.kind.closes = false := by
  obtain ⟨more, h⟩ := h
  exact fun t ht => h.endless _ (List.mem_append_left _ (List.mem_map_of_mem ht))

theorem unfinished_nil : Unfinished [] :=
  ⟨_, .method .empty⟩

end HostScript
