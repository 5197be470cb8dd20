import HostScript.Proofs.SpelledExpressions
import HostScript.Proofs.UnfinishedHeads

/-!
# Tokens that spell statements

A statement is spelled by its tokens if its expressions are derived by some of them, and the last of them ends it. What
stands in a statement is put together from fragments: tokens that spell pieces, with the expressions and the statements
that they hold.
-/

set_option autoImplicit false

namespace HostScript

variable {e : Expr} {type : TypeName} {ws : List Word}

/-! ## Fragments -/

/-- An expression that stands in a statement is derived by its tokens, or it is given by items in braces. -/
def Stands (e : Expr) (us : List Token) : Prop :=
  Derives (.expr 0 e) us ∨ ∃ span element items, e = .arrayInit span element items ∧ Derives (.braces items span) us

theorem Stands.subs {us : List Token} (h : Stands e us) : Among Stands e.subs us := by
  have hwithin {es : List Expr} (h : Within es us) : Among Stands es us := by
    intro f hf
    obtain ⟨vs, hvs, hf⟩ := h f hf
    exact ⟨vs, hvs, .inl hf⟩
  have hstands := h
  rcases h with h | ⟨span, element, items, rfl, h⟩
  · exact hwithin (Within.whole h.within h)
  · exact List.forall_mem_cons.2 ⟨⟨us, List.infix_rfl, hstands⟩, hwithin h.within⟩

theorem Stands.bindsRight {us : List Token} (h : Stands e us) : e.BindsRight := by
  rcases h with h | ⟨span, element, items, rfl, -⟩
  · exact h.bindsRight
  · trivial

theorem Stands.covers {us : List Token} (h : Stands e us) : Covers e.span us := by
  rcases h with h | ⟨span, element, items, rfl, h⟩
  · exact h.covered
  · exact h.covered

/-- What a statement is made of besides statements stands where some of the tokens do. -/
structure Stmt.Placed (s : Stmt) (ts : List Token) : Prop where
  exprs : Among Stands s.exprs ts
  constructs : Among (fun k us => Covers k.1 us) s.constructs ts

theorem Stmt.Placed.mono {s : Stmt} {ts us : List Token} (h : s.Placed ts) (hts : ts <:+: us) : s.Placed us :=
  ⟨h.exprs.mono hts, h.constructs.mono hts⟩

/-- Tokens that spell pieces and hold expressions and statements. -/
structure Fragment (ps : List Piece) (ss : List Stmt) (es : List Expr) (ts : List Token) : Prop where
  spell : Spell ps ts
  own : Among Stands es ts
  inner : ∀ s ∈ ss, s.ElseNearest ∧ s.Placed ts

namespace Fragment

variable {ps qs : List Piece} {ss ss' : List Stmt} {es fs : List Expr} {t : Token} {ts us : List Token}
  {m : Mark}

theorem of (h : Spell ps ts) : Fragment ps [] [] ts := ⟨h, .nil, by simp⟩

theorem nil : Fragment [] [] [] [] := .of .nil

theorem append (h : Fragment ps ss es ts) (h' : Fragment qs ss' fs us) :
    Fragment (ps ++ qs) (ss ++ ss') (es ++ fs) (ts ++ us) where
  spell := h.spell.append h'.spell
  own := h.own.append h'.own
  inner := List.forall_mem_append.2
    ⟨fun s hs => (h.inner s hs).imp_right (·.mono (List.prefix_append ts us).isInfix),
      fun s hs => (h'.inner s hs).imp_right (·.mono (List.suffix_append ts us).isInfix)⟩

/-- Words before what is spelled, without expressions. -/
theorem after (h : Fragment ps ss es ts) (h' : Spell qs us) : Fragment (qs ++ ps) ss es (us ++ ts) :=
  (of h').append h

theorem mark (h : Fragment ps ss es ts) (ht : t.kind = .mark m) :
    Fragment (.word (.mark m) :: ps) ss es (t :: ts) := h.after (Spell.nil.mark ht)

theorem keyword {k : Keyword} (h : Fragment ps ss es ts) (ht : t.kind = .keyword k) :
    Fragment (.word (.keyword k) :: ps) ss es (t :: ts) := h.after (Spell.nil.keyword ht)

theorem identifier (h : Fragment ps ss es ts) (ht : t.kind = .identifier) :
    Fragment (.word (.identifier t.lexeme) :: ps) ss es (t :: ts) := h.after (Spell.nil.identifier ht)

/-- A mark at the end. -/
theorem snoc (h : Fragment ps ss es ts) (ht : t.kind = .mark m) :
    Fragment (ps ++ [.word (.mark m)]) ss es (ts ++ [t]) := by
  have hall := h.append (nil.mark ht)
  rwa [List.append_nil, List.append_nil] at hall

theorem expr {e : Expr} (h : Derives (.expr 0 e) ts) : Fragment e.pieces [] [e] ts where
  spell := h.spell
  own := List.forall_mem_singleton.2 ⟨ts, List.infix_rfl, .inl h⟩
  inner := by simp

theorem sub (h : Fragment ps ss es ts) (hfs : fs ⊆ es) : Fragment ps ss fs ts :=
  ⟨h.spell, fun e he => h.own e (hfs he), h.inner⟩

/-- A statement that is spelled by a fragment. -/
theorem node {u : Stmt} (h : Fragment ps ss es ts) (hps : u.pieces = ps) (hss : u.parts = ss) (helse : u.ElseNearest)
    (hks : Among (fun k us => Covers k.1 us) u.constructs ts) (hes : u.exprs ⊆ es) :
    Fragment u.pieces u.subs [] ts where
  spell := hps ▸ h.spell
  own := .nil
  inner := by
    rw [Stmt.subs_eq, hss]
    exact List.forall_mem_cons.2 ⟨⟨helse, (h.sub hes).own, hks⟩, h.inner⟩

end Fragment

/-! ## Tokens that spell statements -/

/-- The last of these tokens ends a statement, at the given offset. -/
def EndsAt (stop : Nat) (ts : List Token) : Prop :=
  ∃ us t, ts = us ++ [t] ∧ t.kind.closes = true ∧ t.span.stop = stop

/-- No `else` comes next. -/
abbrev Elseless : List Token → Prop := First (·.kind.isKeyword .elseWord = false)

/-- Tokens that spell a statement. An `else` after it would belong to it. -/
structure SpelledStmt (u : Stmt) (ts rest : List Token) : Prop where
  fragment : Fragment u.pieces u.subs [] ts
  starts : StartsAt u.span.start ts
  ends : EndsAt u.span.stop ts
  elseless : u.endsOpen = true → Elseless rest

section Ends

variable {stop : Nat} {t : Token} {ts : List Token}

theorem endsAt_single {m : Mark} (h : t.kind = .mark m) (hm : (Token.Kind.mark m).closes = true) (us : List Token) :
    EndsAt t.span.stop (us ++ [t]) := ⟨us, t, rfl, h ▸ hm, rfl⟩

theorem EndsAt.append (h : EndsAt stop ts) (us : List Token) : EndsAt stop (us ++ ts) := by
  obtain ⟨vs, t, rfl, ht, hstop⟩ := h
  exact ⟨us ++ vs, t, (List.append_assoc _ _ _).symm, ht, hstop⟩

theorem EndsAt.cons (h : EndsAt stop ts) (t : Token) : EndsAt stop (t :: ts) := h.append [t]

theorem EndsAt.stops (h : EndsAt stop ts) : StopsAt stop ts := by
  obtain ⟨us, t, rfl, -, hstop⟩ := h
  exact ⟨us, t, rfl, hstop⟩

theorem EndsAt.ne (h : EndsAt stop ts) : ts ≠ [] := by
  obtain ⟨us, t, rfl, -⟩ := h
  simp

end Ends

/-- A statement to which no `else` can be added. -/
theorem SpelledStmt.closed {u : Stmt} {ts rest : List Token} (h : Fragment u.pieces u.subs [] ts)
    (hstarts : StartsAt u.span.start ts) (hends : EndsAt u.span.stop ts) (hopen : u.endsOpen = false) :
    SpelledStmt u ts rest :=
  ⟨h, hstarts, hends, fun h => by rw [hopen] at h; cases h⟩

/-- Words that have to come first, and then what fits. -/
theorem fits_ofWords_append {l : List Word} {ps : List Piece} (h : Fits (Piece.ofWords ws ++ ps) l) :
    ∃ l', l = ws ++ l' ∧ Fits ps l' := by
  induction ws generalizing l with
  | nil => exact ⟨l, rfl, h⟩
  | cons w ws ih =>
    cases h with
    | word h =>
      obtain ⟨l', rfl, hl'⟩ := ih h
      exact ⟨l', rfl, hl'⟩

/-- The first value of a variable may be any expression. -/
theorem fits_initializer (h : Fits e.pieces ws) : Fits (initializerPieces type e) ws := by
  cases e with
  | arrayInit s element items =>
    rw [initializerPieces]
    split
    · obtain ⟨l, rfl, hl⟩ := fits_ofWords_append h
      exact .take hl
    · exact h
  | _ => exact h

/-- Items in braces stand for an array of the declared type. -/
theorem fits_braces {items : List Expr} (hdims : type.dims ≠ 0)
    (h : Fits (Expr.braced (Expr.piecesAll items)) ws) (s : Span) :
    Fits (initializerPieces type (.arrayInit s ⟨type.name, type.dims - 1⟩ items)) ws := by
  rw [initializerPieces, if_pos ⟨rfl, Nat.pos_of_ne_zero hdims⟩]
  exact .leave h

end HostScript
