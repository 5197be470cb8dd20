import HostScript.Proofs.LocalTokens
import HostScript.Proofs.UnitRuns

/-!
# Units spell their text

No token of a text is lost, invented or read twice on the way to its units: the words of the units, in the order of
the text, are the words of the tokens (`units_spell_text`), although the reader goes back out of declarations, heads of
loops and casts that it has read in part.
-/

set_option autoImplicit false

namespace HostScript

/-! ## Tokens of the scanner -/

namespace Token

variable {c : Char} {cs rest taken : List Char} {kind : Token.Kind}

/-- A word is a keyword, or no keyword; in neither is a point. -/
theorem scanWord_lexed (span : Span) (hc : Text.isWordStart c = true)
    (h : scanWord c cs = .token kind taken rest) :
    Lexed ⟨kind, String.ofList taken, span⟩ ∧ kind ≠ .eof := by
  have hpoint : '.' ∉ c :: cs.takeWhile Text.isWordChar := by
    rw [List.mem_cons, not_or]
    refine ⟨?_, fun hmem => ?_⟩
    · rintro rfl
      exact absurd hc (by decide)
    · exact absurd (List.mem_takeWhile_imp hmem) (by decide)
  unfold scanWord at h
  dsimp only at h
  cases hword : Keyword.ofWord? (String.ofList (c :: cs.takeWhile Text.isWordChar)) with
  | some k =>
    rw [hword] at h
    cases h
    refine ⟨⟨fun k' hk => ?_, fun hk => by cases hk⟩, by simp⟩
    cases hk
    have hfound : Keyword.all.find? (·.word == _) = some k := hword
    have hsame := List.find?_some hfound
    exact (beq_iff_eq.1 hsame).symm
  | none =>
    rw [hword] at h
    cases h
    refine ⟨⟨fun k' hk => (by cases hk), fun _ => ⟨hword, ?_⟩⟩, by simp⟩
    rw [String.toList_ofList]
    exact hpoint

/-- Only words make keywords and identifiers, and nothing makes the token that stands for the end. -/
theorem scanToken_lexed (span : Span) (h : scanToken c cs = .token kind taken rest) :
    Lexed ⟨kind, String.ofList taken, span⟩ ∧ kind ≠ .eof := by
  have hother : ∀ q : Token.Kind → Prop, (∀ k, ¬ q (.keyword k)) → ¬ q .identifier → ¬ q .eof →
      (Found.token kind taken rest).Is q → Lexed ⟨kind, String.ofList taken, span⟩ ∧ kind ≠ .eof :=
    fun q hkeyword hidentifier heof his =>
      ⟨⟨fun k hk => absurd (hk ▸ his : q (.keyword k)) (hkeyword k),
        fun hk => absurd (hk ▸ his : q .identifier) hidentifier⟩, fun hk => absurd (hk ▸ his : q .eof) heof⟩
  rcases scanToken_branches c with ⟨hstart, heq⟩ | heq | ⟨-, heq⟩ | ⟨-, heq⟩ | heq <;> rw [heq] at h
  · exact scanWord_lexed span hstart h
  · exact hother _ (by simp) (by simp) (by simp) (h ▸ is_scanNumber c cs)
  · exact hother _ (by simp) (by simp) (by simp) (h ▸ is_scanText _ _ cs)
  · exact hother _ (by simp) (by simp) (by simp) (h ▸ is_scanChar cs)
  · exact hother _ (by simp) (by simp) (by simp) (h ▸ is_scanMark c cs)

theorem lexed_streamOf (offset : Nat) (cs : List Char) :
    ∀ t ∈ (streamOf offset cs).tokens, t.Lexed ∧ t.kind ≠ .eof := by
  intro t ht
  rw [streamOf_eq] at ht
  obtain ⟨start, c, rest, kind, taken, after, -, htoken, rfl⟩ := exists_of_mem_afterGap ht
  exact scanToken_lexed _ htoken

end Token

/-! ## Units -/

/-- Units one after the other are spelled by the tokens that were taken for them. -/
theorem Cursor.Gives.spelled {c c' : Cursor} {us : List Stmt} (h : Cursor.Gives c us c') :
    ∃ taken, c.rest = taken ++ c'.rest ∧ Fragment (Stmt.piecesAll us) (Stmt.subsAll us) [] taken ∧
      Among (fun u ts => Covers u.span ts) us taken := by
  induction h with
  | done c => exact ⟨[], rfl, .nil, .nil⟩
  | @unit c c' c'' u us hunit _ ih =>
    obtain ⟨taken, honward, hspelled⟩ := unit_spelled hunit
    obtain ⟨later, hrest, hlater, hunits⟩ := ih
    exact ⟨taken ++ later, by rw [honward.rest, hrest, List.append_assoc], hspelled.fragment.append hlater,
      .append (l := [u]) (.one ⟨hspelled.starts, hspelled.ends.stops⟩) hunits⟩

/-- The units of a text spell all of its tokens, in order: kinds and values, and the names of identifiers. Only a comma
after the last item in braces, and the type before the braces of a declared array, leave no trace. Every binary
operator in them has a left operand that binds at least as tightly as itself and a right one that binds more tightly,
and every `else` belongs to the nearest `if`. -/
theorem units_spell_text {source : String} {units : List Stmt} (h : parseUnits source = .ok units) :
    (∃ length, (scan source).ending = .complete length) ∧
      Fits (Stmt.piecesAll units) ((scan source).tokens.map Token.word) ∧
        (∀ s ∈ Stmt.subsAll units, ∀ e ∈ s.exprs, ∀ f ∈ e.subs, f.BindsRight) ∧
          ∀ s ∈ Stmt.subsAll units, s.ElseNearest := by
  obtain ⟨c, hgives, hnil, length, hending⟩ := parsesTo_iff.2 h
  obtain ⟨taken, hrest, hspelled, -⟩ := hgives.spelled
  have htokens : (scan source).tokens = taken := by
    rw [hnil, List.append_nil] at hrest
    exact hrest
  refine ⟨⟨length, ?_⟩, ?_, fun s hs e he f hf => ?_, fun s hs => (hspelled.inner s hs).1⟩
  · rw [← hending]
    exact hgives.ending.symm
  · rw [htokens]
    exact hspelled.spell fun t ht => (Token.lexed_streamOf 0 source.toList t (htokens ▸ ht)).1
  · obtain ⟨us, -, hstands⟩ := (hspelled.inner s hs).2.exprs e he
    obtain ⟨_, -, hf⟩ := hstands.subs f hf
    exact hf.bindsRight

/-- A comma that may be left out, parentheses that are no cast, an `else` after two choices, and a loop that declares
nothing. -/
def windingText : String :=
  "int[] a = \x7b1, 2,\x7d; b * (c) - f(b, c); if (c) if (d) f(); else g(); for (b[0] = 1; ; ) break;"

theorem winding_text_spelled : ∃ units, parseUnits windingText = .ok units ∧ units.length = 4 ∧
    Fits (Stmt.piecesAll units) ((scan windingText).tokens.map Token.word) ∧
      (scan windingText).tokens.length = 55 ∧ ∀ s ∈ Stmt.subsAll units, s.ElseNearest := by
  have hlength : (parseUnits windingText).toOption.map List.length = some 4 := by decide +kernel
  have htokens : (scan windingText).tokens.length = 55 := by decide +kernel
  cases h : parseUnits windingText with
  | error d =>
    rw [h] at hlength
    cases hlength
  | ok units =>
    rw [h] at hlength
    obtain ⟨-, hfits, -, helse⟩ := units_spell_text h
    exact ⟨units, rfl, Option.some.inj hlength, hfits, htokens, helse⟩

end HostScript
