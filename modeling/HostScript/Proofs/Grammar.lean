import HostScript.Proofs.Spelling

/-!
# The grammar of expressions

`Derives` says which tokens make up an expression of a rank, or a list of expressions in brackets, with the spans that
the expression gets from them.
-/

set_option autoImplicit false

namespace HostScript

variable {op : BinaryOp}

/-! ## Types -/

/-- What pairs of tokens add to what was read before. -/
inductive Adds {α : Type} (opens follows : Token.Kind → Bool) (add : α → Token → α) : α → List Token → α → Prop
  | nil (a : α) : Adds opens follows add a [] a
  | pair {a a' : α} {t u : Token} {ts : List Token} (ht : opens t.kind) (hu : follows u.kind)
      (h : Adds opens follows add (add a u) ts a') : Adds opens follows add a (t :: u :: ts) a'

/-- Segments that are added to a name. -/
abbrev Dots : String → List Token → String → Prop :=
  Adds (·.isMark .dot) (·.isIdentifier) fun name segment => s!"{name}.{segment.lexeme}"

/-- Pairs of brackets that are added to a number of dimensions. -/
abbrev Dims : Nat → List Token → Nat → Prop :=
  Adds (·.isMark .lbracket) (·.isMark .rbracket) fun dims _ => dims + 1

/-- The tokens of a type. -/
inductive TypeTokens : TypeName → List Token → Prop
  | word {t : Token} {ts : List Token} {dims : Nat} (ht : t.kind.isTypeWord) (h : Dims 0 ts dims) :
      TypeTokens ⟨t.lexeme, dims⟩ (t :: ts)
  | named {t : Token} {us ts : List Token} {name : String} {dims : Nat} (ht : t.kind = .identifier)
      (h : Dots t.lexeme us name) (h' : Dims 0 ts dims) : TypeTokens ⟨name, dims⟩ (t :: (us ++ ts))

theorem TypeTokens.ne {type : TypeName} {ts : List Token} (h : TypeTokens type ts) : ts ≠ [] := by
  cases h <;> simp

/-! ## Expressions -/

/-- What tokens can derive: an expression that binds at least as tightly as its rank says, one or more expressions
with commas between them, arguments in parentheses with the span of the closing one, the items before a closing
brace, and items in braces. -/
inductive Phrase where
  | expr (rank : Nat) (e : Expr)
  | list (es : List Expr)
  | args (es : List Expr) (close : Span)
  | items (es : List Expr)
  | braces (es : List Expr) (span : Span)

/-- Tokens that derive a phrase. -/
inductive Derives : Phrase → List Token → Prop
  | loosen {m n : Nat} {e : Expr} {ts : List Token} (h : Derives (.expr n e) ts) (hm : m ≤ n) :
      Derives (.expr m e) ts
  | literal {t : Token} {value : Literal} (ht : t.kind.literal? = some value) :
      Derives (.expr 13 (.literal t.span value)) [t]
  | name {t : Token} (ht : t.kind = .identifier) : Derives (.expr 13 (.name t.span t.lexeme)) [t]
  | this {t : Token} (ht : t.kind = .keyword .thisWord) : Derives (.expr 13 (.this t.span)) [t]
  | super {t : Token} (ht : t.kind = .keyword .superWord) : Derives (.expr 13 (.super t.span)) [t]
  | call {t : Token} {args : List Expr} {close : Span} {ts : List Token} (ht : t.kind = .identifier)
      (h : Derives (.args args close) ts) : Derives (.expr 13 (.call (t.span.to close) t.lexeme args)) (t :: ts)
  | group {t u : Token} {e : Expr} {ts : List Token} (ht : t.kind = .mark .lparen) (h : Derives (.expr 0 e) ts)
      (hu : u.kind = .mark .rparen) : Derives (.expr 13 (.group (t.span.to u.span) e)) (t :: (ts ++ [u]))
  | new {t : Token} {name : String} {args : List Expr} {close : Span} {us ts : List Token}
      (ht : t.kind = .keyword .newWord) (htype : TypeTokens ⟨name, 0⟩ us) (h : Derives (.args args close) ts) :
      Derives (.expr 13 (.new (t.span.to close) ⟨name, 0⟩ args)) (t :: (us ++ ts))
  | newArray {t u v : Token} {name : String} {length : Expr} {us ts : List Token}
      (ht : t.kind = .keyword .newWord) (htype : TypeTokens ⟨name, 0⟩ us) (hu : u.kind = .mark .lbracket)
      (h : Derives (.expr 0 length) ts) (hv : v.kind = .mark .rbracket) :
      Derives (.expr 13 (.newArray (t.span.to v.span) ⟨name, 0⟩ length)) (t :: (us ++ u :: (ts ++ [v])))
  | arrayInit {t u v : Token} {name : String} {items : List Expr} {span : Span} {us ts : List Token}
      (ht : t.kind = .keyword .newWord) (htype : TypeTokens ⟨name, 0⟩ us) (hu : u.kind = .mark .lbracket)
      (hv : v.kind = .mark .rbracket) (h : Derives (.braces items span) ts) :
      Derives (.expr 13 (.arrayInit (t.span.to span) ⟨name, 0⟩ items)) (t :: (us ++ u :: v :: ts))
  | field {t u : Token} {target : Expr} {ts : List Token} (h : Derives (.expr 13 target) ts)
      (ht : t.kind = .mark .dot) (hu : u.kind = .identifier) :
      Derives (.expr 13 (.field (target.span.to u.span) target u.lexeme)) (ts ++ [t, u])
  | methodCall {t u : Token} {target : Expr} {args : List Expr} {close : Span} {ts us : List Token}
      (h : Derives (.expr 13 target) ts) (ht : t.kind = .mark .dot) (hu : u.kind = .identifier)
      (h' : Derives (.args args close) us) :
      Derives (.expr 13 (.methodCall (target.span.to close) target u.lexeme args)) (ts ++ t :: u :: us)
  | index {t u : Token} {target i : Expr} {ts us : List Token} (h : Derives (.expr 13 target) ts)
      (ht : t.kind = .mark .lbracket) (h' : Derives (.expr 0 i) us) (hu : u.kind = .mark .rbracket) :
      Derives (.expr 13 (.index (target.span.to u.span) target i)) (ts ++ t :: (us ++ [u]))
  | postStep {t : Token} {step : Step} {target : Expr} {ts : List Token} (h : Derives (.expr 13 target) ts)
      (ht : t.kind.step? = some step) :
      Derives (.expr 12 (.postStep (target.span.to t.span) step target)) (ts ++ [t])
  | preStep {t : Token} {step : Step} {target : Expr} {ts : List Token} (ht : t.kind.step? = some step)
      (h : Derives (.expr 11 target) ts) : Derives (.expr 11 (.preStep (t.span.to target.span) step target)) (t :: ts)
  | unary {t : Token} {op : UnaryOp} {e : Expr} {ts : List Token} (ht : t.kind.unary? = some op)
      (h : Derives (.expr 11 e) ts) : Derives (.expr 11 (.unary (t.span.to e.span) op e)) (t :: ts)
  | cast {t first u v : Token} {type : TypeName} {e : Expr} {us ts : List Token} (ht : t.kind = .mark .lparen)
      (htype : TypeTokens type (first :: us)) (hu : u.kind = .mark .rparen)
      (hv : v.kind.startsCastOperand first.kind.isTypeWord) (h : Derives (.expr 11 e) (v :: ts)) :
      Derives (.expr 11 (.cast (t.span.to e.span) type e)) (t :: (first :: us ++ u :: v :: ts))
  | binary {t : Token} {op : BinaryOp} {left right : Expr} {ts us : List Token}
      (h : Derives (.expr (2 + op.level) left) ts) (ht : t.kind = .mark op.mark)
      (h' : Derives (.expr (2 + op.level + 1) right) us) :
      Derives (.expr (2 + op.level) (.binary (left.span.to right.span) op left right)) (ts ++ t :: us)
  | conditional {t u : Token} {condition yes no : Expr} {ts us vs : List Token} (h : Derives (.expr 2 condition) ts)
      (ht : t.kind = .mark .question) (h' : Derives (.expr 0 yes) us) (hu : u.kind = .mark .colon)
      (h'' : Derives (.expr 1 no) vs) :
      Derives (.expr 1 (.conditional (condition.span.to no.span) condition yes no)) (ts ++ t :: (us ++ u :: vs))
  | assign {t : Token} {op : Option BinaryOp} {target value : Expr} {ts us : List Token}
      (h : Derives (.expr 1 target) ts) (ht : t.kind.assignment? = some op) (h' : Derives (.expr 0 value) us) :
      Derives (.expr 0 (.assign (target.span.to value.span) target op value)) (ts ++ t :: us)
  | one {e : Expr} {ts : List Token} (h : Derives (.expr 0 e) ts) : Derives (.list [e]) ts
  | more {t : Token} {e f : Expr} {es : List Expr} {ts us : List Token} (h : Derives (.expr 0 e) ts)
      (ht : t.kind = .mark .comma) (h' : Derives (.list (f :: es)) us) :
      Derives (.list (e :: f :: es)) (ts ++ t :: us)
  | noArgs {t u : Token} (ht : t.kind = .mark .lparen) (hu : u.kind = .mark .rparen) :
      Derives (.args [] u.span) [t, u]
  | args {t u : Token} {es : List Expr} {ts : List Token} (ht : t.kind = .mark .lparen) (h : Derives (.list es) ts)
      (hu : u.kind = .mark .rparen) : Derives (.args es u.span) (t :: (ts ++ [u]))
  | noItems : Derives (.items []) []
  | lastItem {e : Expr} {ts : List Token} (h : Derives (.expr 0 e) ts) : Derives (.items [e]) ts
  | item {t : Token} {e : Expr} {es : List Expr} {ts us : List Token} (h : Derives (.expr 0 e) ts)
      (ht : t.kind = .mark .comma) (h' : Derives (.items es) us) : Derives (.items (e :: es)) (ts ++ t :: us)
  | braces {t u : Token} {es : List Expr} {ts : List Token} (ht : t.kind = .mark .lbrace)
      (h : Derives (.items es) ts) (hu : u.kind = .mark .rbrace) :
      Derives (.braces es (t.span.to u.span)) (t :: (ts ++ [u]))

/-- An expression has tokens. -/
theorem Derives.ne {n : Nat} {e : Expr} {ts : List Token} (h : Derives (.expr n e) ts) : ts ≠ [] := by
  generalize hp : Phrase.expr n e = p at h
  induction h generalizing n with
  | @loosen m _ _ _ _ _ ih =>
    cases hp
    exact ih rfl
  | one | noItems | lastItem => cases hp
  | _ => simp

/-- The rank of the expressions that a goal asks for. -/
def Goal.rank : Goal → Nat
  | expression => 0
  | conditional => 1
  | unary => 11

/-! ## Marks of operators -/

theorem BinaryOp.eq_mark {m : Mark} (h : BinaryOp.ofMark? m = some op) : m = op.mark := by
  unfold ofMark? at h
  split at h <;> cases h <;> rfl

theorem Token.Kind.eq_binary {kind : Token.Kind} {level : Nat} (h : kind.binaryAt? level = some op) :
    kind = .mark op.mark ∧ op.level = level := by
  cases kind with
  | mark m =>
    obtain ⟨hop, hlevel⟩ := Option.filter_eq_some_iff.1 h
    rw [BinaryOp.eq_mark hop]
    exact ⟨rfl, of_decide_eq_true hlevel⟩
  | _ => cases h

end HostScript
