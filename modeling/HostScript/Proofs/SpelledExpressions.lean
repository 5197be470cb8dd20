import HostScript.Proofs.Grammar
import HostScript.Proofs.Readers

/-!
# Expressions are spelled by their tokens

Tokens that derive an expression are its words (`Derives.spell`), and every expression within it is derived by some
of them (`Derives.within`). So every operator in it has operands that bind tightly enough (`Derives.bindsRight`).
-/

set_option autoImplicit false

namespace HostScript

variable {n : Nat} {e : Expr} {p : Phrase} {x : String} {type : TypeName} {ts : List Token}

/-! ## Words of names -/

theorem segments_ne_nil (cs : List Char) : segments cs ≠ [] := by
  cases cs with
  | nil => simp [segments]
  | cons c cs =>
    unfold segments
    split <;> simp

theorem segments_append (cs ds : List Char) : segments (cs ++ '.' :: ds) = segments cs ++ segments ds := by
  induction cs with
  | nil => rfl
  | cons c cs ih =>
    rw [List.cons_append, segments, segments, ih]
    by_cases hc : c = '.'
    · rw [if_pos hc, if_pos hc, List.cons_append]
    · rw [if_neg hc, if_neg hc]
      obtain ⟨s, ss, hs⟩ := List.exists_cons_of_ne_nil (segments_ne_nil cs)
      simp [hs]

theorem segments_of_not_mem {cs : List Char} (h : '.' ∉ cs) : segments cs = [cs] := by
  induction cs with
  | nil => rfl
  | cons c cs ih =>
    rw [List.mem_cons, not_or] at h
    rw [segments, if_neg (Ne.symm h.1), ih h.2]
    rfl

theorem dotted_append_singleton {l : List (List Char)} (h : l ≠ []) (s : List Char) :
    dotted (l ++ [s]) = dotted l ++ [.mark .dot, .identifier (String.ofList s)] := by
  induction l with
  | nil => exact absurd rfl h
  | cons a l ih =>
    cases l with
    | nil => rfl
    | cons b l =>
      have hlater := ih (List.cons_ne_nil b l)
      simp only [List.cons_append, dotted] at hlater ⊢
      rw [hlater]

theorem pathWords_of_not_mem (h : '.' ∉ x.toList) : pathWords x = [.identifier x] := by
  rw [pathWords, segments_of_not_mem h, dotted, String.ofList_toList]

/-- A segment adds a point and itself to the words of a name. -/
theorem pathWords_dot (name : String) (h : '.' ∉ x.toList) :
    pathWords s!"{name}.{x}" = pathWords name ++ [.mark .dot, .identifier x] := by
  have hlist : (s!"{name}.{x}").toList = name.toList ++ '.' :: x.toList := by
    show (name ++ "." ++ x).toList = _
    simp
  rw [pathWords, hlist, segments_append, segments_of_not_mem h,
    dotted_append_singleton (segments_ne_nil _), String.ofList_toList, pathWords]

theorem ofWord?_word (k : Keyword) : Keyword.ofWord? k.word = some k := by
  cases k <;> decide

/-- No keyword has a point in it. -/
theorem ofWord?_dot (name x : String) : Keyword.ofWord? s!"{name}.{x}" = none := by
  have hall : ∀ k ∈ Keyword.all, '.' ∉ k.word.toList := by decide
  have hdot : '.' ∈ (s!"{name}.{x}").toList := by
    show '.' ∈ (name ++ "." ++ x).toList
    simp
  refine List.find?_eq_none.2 fun k hk heq => hall k hk ?_
  rw [beq_iff_eq.1 heq]
  exact hdot

/-! ## Words of tokens -/

namespace Token

variable {t : Token}

/-- What the scanner says of words: a keyword stands for itself, and an identifier is no keyword and has no point. -/
def Lexed (t : Token) : Prop :=
  (∀ k, t.kind = .keyword k → t.lexeme = k.word) ∧
    (t.kind = .identifier → Keyword.ofWord? t.lexeme = none ∧ '.' ∉ t.lexeme.toList)

theorem word_mark {m : Mark} (h : t.kind = .mark m) : t.word = .mark m := by
  rw [word, h]
  rfl

theorem word_keyword {k : Keyword} (h : t.kind = .keyword k) : t.word = .keyword k := by
  rw [word, h]
  rfl

theorem word_identifier (h : t.kind = .identifier) : t.word = .identifier t.lexeme := by
  rw [word, h]
  rfl

namespace Kind

variable {kind : Token.Kind}

theorem eq_step {step : Step} (h : kind.step? = some step) : kind = .mark step.mark := by
  unfold step? at h
  split at h <;> cases h <;> rfl

theorem eq_unary {op : UnaryOp} (h : kind.unary? = some op) : kind = .mark op.mark := by
  unfold unary? at h
  split at h <;> cases h <;> rfl

theorem eq_assignment {op : Option BinaryOp} (h : kind.assignment? = some op) : kind = .mark (assignMark op) := by
  unfold assignment? at h
  split at h <;> cases h <;> rfl

end Kind

theorem word_literal {value : Literal} (h : t.kind.literal? = some value) : t.word = value.word := by
  obtain ⟨kind, lexeme, span⟩ := t
  unfold Kind.literal? at h
  split at h <;> cases h
  all_goals
    rename_i hkind
    cases (hkind : kind = _)
    rfl

end Token

/-! ## Tokens that spell -/

/-- Tokens spell pieces, if they are what the scanner says they are. -/
def Spell (ps : List Piece) (ts : List Token) : Prop := (∀ t ∈ ts, t.Lexed) → Fits ps (ts.map Token.word)

namespace Spell

variable {ps qs : List Piece} {t u : Token} {us : List Token}

theorem nil : Spell [] [] := fun _ => .nil

theorem append (h : Spell ps ts) (h' : Spell qs us) : Spell (ps ++ qs) (ts ++ us) := by
  intro hlexed
  rw [List.forall_mem_append] at hlexed
  rw [List.map_append]
  exact (h hlexed.1).append (h' hlexed.2)

theorem word (h : Spell ps ts) : Spell (.word t.word :: ps) (t :: ts) :=
  fun hlexed => .word (h fun u hu => hlexed u (List.mem_cons_of_mem t hu))

theorem mark {m : Mark} (h : Spell ps ts) (ht : t.kind = .mark m) : Spell (.word (.mark m) :: ps) (t :: ts) :=
  Token.word_mark ht ▸ h.word

theorem keyword {k : Keyword} (h : Spell ps ts) (ht : t.kind = .keyword k) :
    Spell (.word (.keyword k) :: ps) (t :: ts) :=
  Token.word_keyword ht ▸ h.word

theorem identifier (h : Spell ps ts) (ht : t.kind = .identifier) :
    Spell (.word (.identifier t.lexeme) :: ps) (t :: ts) :=
  Token.word_identifier ht ▸ h.word

/-- Words that may be left out, and are. -/
theorem leave (h : Spell ps ts) (l : List Word) : Spell (ps ++ [.maybe l]) ts := by
  intro hlexed
  rw [← List.append_nil (ts.map _)]
  exact (h hlexed).append (.leave .nil)

/-- A comma at the end that may be left out. -/
theorem comma (h : Spell ps ts) (ht : t.kind = .mark .comma) : Spell (ps ++ [.maybe [.mark .comma]]) (ts ++ [t]) := by
  refine h.append fun _ => ?_
  rw [List.map_singleton, Token.word_mark ht]
  exact .take .nil

theorem parenthesized {pieces : List (List Piece)} (h : Spell (commas pieces) ts) (ht : t.kind = .mark .lparen)
    (hu : u.kind = .mark .rparen) : Spell (Expr.parenthesized pieces) (t :: (ts ++ [u])) :=
  (h.append (nil.mark hu)).mark ht

end Spell

/-! ## Types -/

/-- Segments give the words of a longer name. -/
theorem Dots.words {name name' : String} (h : Dots name ts name') (hts : ∀ t ∈ ts, t.Lexed) :
    pathWords name' = pathWords name ++ ts.map Token.word ∧
      (Keyword.ofWord? name = none → Keyword.ofWord? name' = none) := by
  induction h with
  | nil name => exact ⟨(List.append_nil _).symm, id⟩
  | @pair name name' t u ts ht hu _ ih =>
    have hdot := Token.Kind.eq_mark ht
    have hname := Token.Kind.eq_identifier hu
    have hu' : '.' ∉ u.lexeme.toList := ((hts u (by simp)).2 hname).2
    obtain ⟨hwords, hkeyword⟩ := ih fun v hv => hts v (by simp [hv])
    refine ⟨?_, fun _ => hkeyword (ofWord?_dot _ _)⟩
    rw [hwords, pathWords_dot _ hu', List.map_cons, List.map_cons, Token.word_mark hdot,
      Token.word_identifier hname, List.append_assoc]
    rfl

theorem Dims.words {dims dims' : Nat} (h : Dims dims ts dims') :
    ∃ n, dims' = dims + n ∧ ts.map Token.word = bracketWords n := by
  induction h with
  | nil dims => exact ⟨0, rfl, rfl⟩
  | pair ht hu _ ih =>
    obtain ⟨n, hdims, hwords⟩ := ih
    refine ⟨n + 1, by omega, ?_⟩
    rw [List.map_cons, List.map_cons, Token.word_mark (Token.Kind.eq_mark ht),
      Token.word_mark (Token.Kind.eq_mark hu), hwords, bracketWords]

/-- The name of a type that is written with the given tokens is the word of a type, or no keyword. -/
theorem TypeTokens.words (h : TypeTokens type ts) (hts : ∀ t ∈ ts, t.Lexed) :
    type.words = ts.map Token.word ∧
      (Keyword.ofWord? type.name = none ∨ ∃ k : Keyword, k.isType ∧ type.name = k.word) := by
  cases h with
  | @word t ts dims ht hdims =>
    obtain ⟨k, hkind⟩ : ∃ k, t.kind = .keyword k := by
      cases hkind : t.kind with
      | keyword k => exact ⟨k, rfl⟩
      | _ =>
        rw [hkind] at ht
        cases ht
    have hname := (hts t List.mem_cons_self).1 k hkind
    refine ⟨?_, .inr ⟨k, ?_, hname⟩⟩
    · obtain ⟨n, hn, hbrackets⟩ := Dims.words hdims
      show typeNameWords t.lexeme ++ bracketWords dims = _
      rw [typeNameWords, hname, ofWord?_word, List.map_cons, Token.word_keyword hkind, hbrackets, hn, Nat.zero_add]
      rfl
    · rw [hkind] at ht
      exact ht
  | @named t us ts name dims ht hdots hdims =>
    obtain ⟨hkeyword, hpoint⟩ := (hts t List.mem_cons_self).2 ht
    obtain ⟨hwords, hnone⟩ := Dots.words hdots fun u hu => hts u (by simp [hu])
    have hname := hnone hkeyword
    refine ⟨?_, .inl hname⟩
    obtain ⟨n, hn, hbrackets⟩ := Dims.words hdims
    show typeNameWords name ++ bracketWords dims = _
    rw [typeNameWords, hname, hwords, pathWords_of_not_mem hpoint, List.map_cons, List.map_append,
      Token.word_identifier ht, hbrackets, hn, Nat.zero_add]
    rfl

theorem TypeTokens.spell (h : TypeTokens type ts) : Spell type.pieces ts := by
  intro hlexed
  rw [TypeName.pieces, (h.words hlexed).1]
  exact fits_ofWords _

/-! ## Expressions -/

/-- How a phrase is spelled. -/
def Phrase.pieces : Phrase → List Piece
  | expr _ e => e.pieces
  | list es => commas (Expr.piecesAll es)
  | args es _ => Expr.parenthesized (Expr.piecesAll es)
  | items es => commas (Expr.piecesAll es) ++ if (Expr.piecesAll es).isEmpty then [] else [.maybe [.mark .comma]]
  | braces es _ => Expr.braced (Expr.piecesAll es)

/-- Tokens spell what they derive. -/
theorem Derives.spell (h : Derives p ts) : Spell p.pieces ts := by
  induction h with
  | loosen _ _ ih => exact ih
  | @literal t value ht =>
    show Spell [.word value.word] [t]
    rw [← Token.word_literal ht]
    exact Spell.nil.word
  | name ht => exact Spell.nil.identifier ht
  | this ht => exact Spell.nil.keyword ht
  | super ht => exact Spell.nil.keyword ht
  | call ht _ ih => exact ih.identifier ht
  | group ht _ hu ih => exact (ih.append (Spell.nil.mark hu)).mark ht
  | new ht htype _ ih => exact (htype.spell.append ih).keyword ht
  | newArray ht htype hu _ hv ih => exact (htype.spell.append ((ih.append (Spell.nil.mark hv)).mark hu)).keyword ht
  | arrayInit ht htype hu hv _ ih =>
    have hall := (htype.spell.append ((ih.mark hv).mark hu)).keyword ht
    simpa [Phrase.pieces, Expr.pieces, Expr.arrayHead, Piece.ofWords, TypeName.pieces] using hall
  | field _ ht hu ih => exact ih.append ((Spell.nil.identifier hu).mark ht)
  | methodCall _ ht hu _ ih ih' => exact ih.append ((ih'.identifier hu).mark ht)
  | index _ ht _ hu ih ih' => exact ih.append ((ih'.append (Spell.nil.mark hu)).mark ht)
  | postStep _ ht ih => exact ih.append (Spell.nil.mark (Token.Kind.eq_step ht))
  | preStep ht _ ih => exact ih.mark (Token.Kind.eq_step ht)
  | unary ht _ ih => exact ih.mark (Token.Kind.eq_unary ht)
  | cast ht htype hu _ _ ih => exact (htype.spell.append (ih.mark hu)).mark ht
  | binary _ ht _ ih ih' => exact ih.append (ih'.mark ht)
  | conditional _ ht _ hu _ ih ih' ih'' => exact ih.append ((ih'.append (ih''.mark hu)).mark ht)
  | assign _ ht _ ih ih' => exact ih.append (ih'.mark (Token.Kind.eq_assignment ht))
  | one _ ih => exact ih
  | more _ ht _ ih ih' => exact ih.append (ih'.mark ht)
  | noArgs ht hu => exact (Spell.nil.mark hu).mark ht
  | args ht _ hu ih => exact ih.parenthesized ht hu
  | noItems => exact .nil
  | lastItem _ ih => exact ih.leave _
  | @item t e es ts us _ ht _ ih ih' =>
    cases es with
    | nil =>
      -- the comma after the last item
      intro hlexed
      have hus : Fits [] (us.map Token.word) := ih' fun u hu => hlexed u (by simp [hu])
      obtain rfl : us = [] := by
        cases us with
        | nil => rfl
        | cons => cases hus
      exact ih.comma ht hlexed
    | cons f es =>
      have hall := ih.append (ih'.mark ht)
      simpa [Phrase.pieces, Expr.piecesAll, commas] using hall
  | braces ht _ hu ih =>
    have hall := (ih.append (Spell.nil.mark hu)).mark ht
    simpa [Phrase.pieces, Expr.braced] using hall

/-- Expressions that are derived for a rank bind at least as tightly, and their operands bind tightly enough. -/
def Phrase.Bound : Phrase → Prop
  | expr n e => n ≤ e.rank ∧ e.BindsRight
  | _ => True

theorem Derives.bound (h : Derives p ts) : p.Bound := by
  induction h with
  | loosen _ hm ih => exact ⟨hm.trans ih.1, ih.2⟩
  | binary _ _ _ ih ih' => exact ⟨le_rfl, ih.1, ih'.1⟩
  | one | more | noArgs | args | noItems | lastItem | item | braces => trivial
  | _ => exact ⟨le_rfl, trivial⟩

theorem Derives.bindsRight (h : Derives (.expr n e) ts) : e.BindsRight :=
  h.bound.2

/-! ## Where expressions stand -/

/-- Tokens of which the first one starts at an offset. -/
def StartsAt (start : Nat) (ts : List Token) : Prop := ∃ t us, ts = t :: us ∧ t.span.start = start

/-- Tokens of which the last one stops at an offset. -/
def StopsAt (stop : Nat) (ts : List Token) : Prop := ∃ us t, ts = us ++ [t] ∧ t.span.stop = stop

/-- A span from the start of the first of some tokens to the end of the last one. -/
structure Covers (span : Span) (ts : List Token) : Prop where
  starts : StartsAt span.start ts
  stops : StopsAt span.stop ts

section Covers

variable {span : Span} {offset : Nat} {t : Token} {us : List Token}

theorem StartsAt.append (h : StartsAt offset ts) (us : List Token) : StartsAt offset (ts ++ us) := by
  obtain ⟨t, vs, rfl, ht⟩ := h
  exact ⟨t, vs ++ us, rfl, ht⟩

theorem StopsAt.append (h : StopsAt offset ts) (us : List Token) : StopsAt offset (us ++ ts) := by
  obtain ⟨vs, t, rfl, ht⟩ := h
  exact ⟨us ++ vs, t, (List.append_assoc _ _ _).symm, ht⟩

theorem StopsAt.cons (h : StopsAt offset ts) (t : Token) : StopsAt offset (t :: ts) := h.append [t]

theorem startsAt_cons (t : Token) (ts : List Token) : StartsAt t.span.start (t :: ts) := ⟨t, ts, rfl, rfl⟩

theorem stopsAt_concat (ts : List Token) (t : Token) : StopsAt t.span.stop (ts ++ [t]) := ⟨ts, t, rfl, rfl⟩

theorem Covers.single (t : Token) : Covers t.span [t] := ⟨startsAt_cons t [], stopsAt_concat [] t⟩

end Covers

/-- Where the tokens of a phrase start and stop. -/
def Phrase.Covered : Phrase → List Token → Prop
  | expr _ e, ts => Covers e.span ts
  | braces _ span, ts => Covers span ts
  | args _ close, ts => StopsAt close.stop ts
  | list _, _ | items _, _ => True

/-- **An expression stands where its tokens do.** -/
theorem Derives.covered (h : Derives p ts) : p.Covered ts := by
  induction h with
  | loosen _ _ ih => exact ih
  | literal | name | this | super => exact .single _
  | call _ _ ih => exact ⟨startsAt_cons _ _, ih.cons _⟩
  | group | braces => exact ⟨startsAt_cons _ _, (stopsAt_concat _ _).cons _⟩
  | new _ _ _ ih => exact ⟨startsAt_cons _ _, (ih.append _).cons _⟩
  | newArray => exact ⟨startsAt_cons _ _, (((stopsAt_concat _ _).cons _).append _).cons _⟩
  | arrayInit _ _ _ _ _ ih => exact ⟨startsAt_cons _ _, (((ih.stops.cons _).cons _).append _).cons _⟩
  | field _ _ _ ih => exact ⟨ih.starts.append _, (stopsAt_concat [_] _).append _⟩
  | methodCall _ _ _ _ ih ih' => exact ⟨ih.starts.append _, ((ih'.cons _).cons _).append _⟩
  | index _ _ _ _ ih => exact ⟨ih.starts.append _, ((stopsAt_concat _ _).cons _).append _⟩
  | postStep _ _ ih => exact ⟨ih.starts.append _, stopsAt_concat _ _⟩
  | preStep _ _ ih | unary _ _ ih => exact ⟨startsAt_cons _ _, ih.stops.cons _⟩
  | cast _ _ _ _ _ ih => exact ⟨startsAt_cons _ _, ((ih.stops.cons _).append _).cons _⟩
  | binary _ _ _ ih ih' | assign _ _ _ ih ih' => exact ⟨ih.starts.append _, (ih'.stops.cons _).append _⟩
  | conditional _ _ _ _ _ ih _ ih'' =>
    exact ⟨ih.starts.append _, (((ih''.stops.cons _).append _).cons _).append _⟩
  | noArgs => exact stopsAt_concat [_] _
  | args => exact (stopsAt_concat _ _).cons _
  | one | more | noItems | lastItem | item => trivial

/-! ## Expressions within expressions -/

/-- Something is said of each of these with some of the tokens. -/
def Among {α : Type} (D : α → List Token → Prop) (l : List α) (ts : List Token) : Prop :=
  ∀ a ∈ l, ∃ us, us <:+: ts ∧ D a us

namespace Among

variable {α : Type} {D : α → List Token → Prop} {l l' : List α} {t : Token} {us : List Token}

theorem nil : Among D [] ts := by
  simp [Among]

theorem one {a : α} (h : D a ts) : Among D [a] ts := List.forall_mem_singleton.2 ⟨ts, List.infix_rfl, h⟩

theorem mono (h : Among D l ts) (hts : ts <:+: us) : Among D l us := by
  intro a ha
  obtain ⟨vs, hvs, hD⟩ := h a ha
  exact ⟨vs, hvs.trans hts, hD⟩

theorem cons (h : Among D l ts) : Among D l (t :: ts) := h.mono (List.suffix_cons t ts).isInfix

theorem snoc (h : Among D l ts) : Among D l (ts ++ us) := h.mono (List.prefix_append ts us).isInfix

theorem after (h : Among D l ts) : Among D l (us ++ ts) := h.mono (List.suffix_append us ts).isInfix

theorem append (h : Among D l ts) (h' : Among D l' us) : Among D (l ++ l') (ts ++ us) :=
  List.forall_mem_append.2 ⟨h.snoc, h'.after⟩

end Among

/-- The expressions are derived by some of the tokens. -/
abbrev Within : List Expr → List Token → Prop := Among fun e us => Derives (.expr 0 e) us

theorem Within.single (h : Within e.subs ts) : Within (Expr.subsAll [e]) ts := by
  rwa [Expr.subsAll, Expr.subsAll, List.append_nil]

/-- An expression with those within it. -/
theorem Within.whole (h : Within e.parts ts) (he : Derives (.expr n e) ts) : Within e.subs ts := by
  rw [Expr.subs_eq]
  exact List.forall_mem_cons.2 ⟨⟨ts, List.infix_rfl, .loosen he (Nat.zero_le n)⟩, h⟩

/-- The expressions within a phrase. -/
def Phrase.parts : Phrase → List Expr
  | expr _ e => e.parts
  | list es | args es _ | items es | braces es _ => Expr.subsAll es

/-- Every expression within a phrase is derived by some of its tokens. -/
theorem Derives.within (h : Derives p ts) : Within p.parts ts := by
  induction h with
  | loosen _ _ ih => exact ih
  | literal | name | this | super | noArgs | noItems => exact .nil
  | call _ _ ih => exact ih.cons
  | group _ h _ ih => exact (Within.whole ih h).snoc.cons
  | new _ _ _ ih => exact ih.after.cons
  | newArray _ _ _ h _ ih => exact (Within.whole ih h).snoc.cons.after.cons
  | arrayInit _ _ _ _ _ ih => exact ih.cons.cons.after.cons
  | field h _ _ ih => exact (Within.whole ih h).snoc
  | methodCall h _ _ _ ih ih' => exact (Within.whole ih h).append ih'.cons.cons
  | index h _ h' _ ih ih' => exact (Within.whole ih h).append (Within.whole ih' h').snoc.cons
  | postStep h _ ih => exact (Within.whole ih h).snoc
  | preStep _ h ih => exact (Within.whole ih h).cons
  | unary _ h ih => exact (Within.whole ih h).cons
  | cast _ _ _ _ h ih => exact (Within.whole ih h).cons.after.cons
  | binary h _ h' ih ih' => exact (Within.whole ih h).append (Within.whole ih' h').cons
  | conditional h _ h' _ h'' ih ih' ih'' =>
    exact (Within.whole ih h).append ((Within.whole ih' h').append (Within.whole ih'' h'').cons).cons
  | assign h _ h' ih ih' => exact (Within.whole ih h).append (Within.whole ih' h').cons
  | one h ih | lastItem h ih => exact .single (.whole ih h)
  | more h _ _ ih ih' | item h _ _ ih ih' => exact (Within.whole ih h).append ih'.cons
  | args _ _ _ ih | braces _ _ _ ih => exact ih.snoc.cons

end HostScript
