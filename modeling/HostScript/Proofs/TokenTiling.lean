import HostScript.Proofs.TokenStreams

/-!
# Tokens and gaps make up the text

A text is laid out as a gap of blanks and comments (`Separates`) and the characters of a token, over and over (`Tiled`),
up to its end, to a comment that is never closed, or to characters that form no token. So no character is lost, and the
spans of the tokens are the places of their characters in the text, counted in bytes (`scan_is_lossless`).
-/

set_option autoImplicit false

namespace HostScript

open Text

namespace Token

/-! ## Gaps -/

/-- A comment is closed within its text. -/
def Closed (body : List Char) : Prop := ['*', '/'] <:+: body

/-- Text that separates tokens: blanks, comments up to the end of their line, and comments up to their closing mark.
At the end of the text a line need not have an end. -/
inductive Separates : Bool → List Char → Prop
  | nil {last : Bool} : Separates last []
  | blank {last : Bool} {c : Char} {cs : List Char} : isBlank c = true → Separates last cs → Separates last (c :: cs)
  | line {last : Bool} {body cs : List Char} : '\n' ∉ body → Separates last cs →
      Separates last ('/' :: '/' :: (body ++ '\n' :: cs))
  | lastLine {body : List Char} : '\n' ∉ body → Separates true ('/' :: '/' :: body)
  | block {last : Bool} {body cs : List Char} : ¬ Closed body → Separates last cs →
      Separates last ('/' :: '*' :: (body ++ '*' :: '/' :: cs))

/-- A comment goes on to the end of its line. -/
theorem skipGap_ofLine (offset : Nat) (cs : List Char) :
    '\n' ∉ cs ∧ skipGap .line offset cs = .ok (offset + byteLength cs, []) ∨
    ∃ body rest, cs = body ++ '\n' :: rest ∧ '\n' ∉ body ∧
      skipGap .line offset cs = skipGap .plain (offset + byteLength body + 1) rest := by
  induction cs generalizing offset with
  | nil => exact .inl ⟨List.not_mem_nil, rfl⟩
  | cons c cs ih =>
    by_cases hc : c = '\n'
    · subst hc
      exact .inr ⟨[], cs, rfl, List.not_mem_nil, rfl⟩
    · have hstep : skipGap .line offset (c :: cs) = skipGap .line (offset + c.utf8Size) cs := by
        rw [skipGap, if_neg hc]
      rw [hstep]
      rcases ih (offset + c.utf8Size) with ⟨hend, hskip⟩ | ⟨body, rest, rfl, hbody, hskip⟩
      · refine .inl ⟨by simp [Ne.symm hc, hend], ?_⟩
        rw [hskip, byteLength, Nat.add_assoc]
      · refine .inr ⟨c :: body, rest, rfl, by simp [Ne.symm hc, hbody], ?_⟩
        rw [hskip, byteLength, Nat.add_assoc offset]

/-- A comment goes on to its first closing mark, or to the end of the text. -/
theorem skipGap_ofBlock (opened offset : Nat) (cs : List Char) :
    ¬ Closed cs ∧ skipGap (.block opened) offset cs =
      .error ⟨.lexical .openComment, ⟨opened, offset + byteLength cs⟩, none⟩ ∨
    ∃ body rest, cs = body ++ '*' :: '/' :: rest ∧ ¬ Closed body ∧
      skipGap (.block opened) offset cs = skipGap .plain (offset + byteLength body + 2) rest := by
  induction cs generalizing offset with
  | nil => exact .inl ⟨by simp [Closed], rfl⟩
  | cons c cs ih =>
    by_cases hclose : ∃ rest, c = '*' ∧ cs = '/' :: rest
    · obtain ⟨rest, rfl, rfl⟩ := hclose
      exact .inr ⟨[], rest, rfl, by simp [Closed], rfl⟩
    · have hopen : ∀ rest, c = '*' → cs = '/' :: rest → False := fun rest hc hcs => hclose ⟨rest, hc, hcs⟩
      have hstep : skipGap (.block opened) offset (c :: cs) = skipGap (.block opened) (offset + c.utf8Size) cs := by
        rw [skipGap]
        exact hopen
      rw [hstep]
      rcases ih (offset + c.utf8Size) with ⟨hend, hskip⟩ | ⟨body, rest, rfl, hbody, hskip⟩
      · refine .inl ⟨fun hclosed => ?_, by rw [hskip, byteLength, Nat.add_assoc]⟩
        rcases List.infix_cons_iff.1 hclosed with ⟨rest, hfront⟩ | hlater
        · obtain ⟨rfl, rfl⟩ := List.cons.inj hfront
          exact hopen rest rfl rfl
        · exact hend hlater
      · refine .inr ⟨c :: body, rest, rfl, fun hclosed => ?_, by rw [hskip, byteLength, Nat.add_assoc offset]⟩
        rcases List.infix_cons_iff.1 hclosed with ⟨later, hfront⟩ | hlater
        · obtain ⟨rfl, rfl⟩ := List.cons.inj hfront
          exact hopen _ rfl rfl
        · exact hbody hlater

/-- What is found after a gap: the rest of the text, or a comment that is never closed. -/
inductive GapEnds (offset : Nat) : List Char → Except Diagnostic (Nat × List Char) → Prop
  | rest {gap rest : List Char} : Separates rest.isEmpty gap →
      GapEnds offset (gap ++ rest) (.ok (offset + byteLength gap, rest))
  | opened {gap body : List Char} : Separates false gap → ¬ Closed body →
      GapEnds offset (gap ++ '/' :: '*' :: body) (.error ⟨.lexical .openComment,
        ⟨offset + byteLength gap, offset + byteLength gap + 2 + byteLength body⟩, none⟩)

/-- What stands before a gap makes it longer. -/
theorem GapEnds.after {offset offset' : Nat} {cs cs' : List Char} {r : Except Diagnostic (Nat × List Char)}
    (h : GapEnds offset' cs r) (front : List Char)
    (hfront : ∀ {last : Bool} {cs : List Char}, Separates last cs → Separates last (front ++ cs))
    (hcs : cs' = front ++ cs) (hoffset : offset' = offset + byteLength front) : GapEnds offset cs' r := by
  subst hcs hoffset
  cases h with
  | rest hgap =>
    rw [← List.append_assoc, Nat.add_assoc, ← byteLength_append]
    exact .rest (hfront hgap)
  | opened hgap hbody =>
    rw [← List.append_assoc, Nat.add_assoc offset, ← byteLength_append]
    exact .opened (hfront hgap) hbody

/-- **A gap is made of blanks and comments.** -/
theorem skipGap_ends (offset : Nat) (cs : List Char) : GapEnds offset cs (skipGap .plain offset cs) := by
  have hslash : byteLength ['/', '/'] = 2 ∧ byteLength ['/', '*'] = 2 ∧ byteLength ['*', '/'] = 2 := by decide
  induction hlen : cs.length using Nat.strong_induction_on generalizing offset cs with
  | h n ih =>
    subst hlen
    by_cases hline : ∃ cs', cs = '/' :: '/' :: cs'
    · obtain ⟨cs', rfl⟩ := hline
      rw [skipGap]
      rcases skipGap_ofLine (offset + 2) cs' with ⟨hend, hskip⟩ | ⟨body, rest, rfl, hbody, hskip⟩
      · rw [hskip, Nat.add_assoc, ← hslash.1, ← byteLength_append, ← List.append_nil ('/' :: '/' :: cs')]
        exact .rest (.lastLine hend)
      · rw [hskip]
        have hlater := ih rest.length (by simp; omega) (offset + 2 + byteLength body + 1) rest rfl
        refine hlater.after (['/', '/'] ++ (body ++ ['\n'])) (fun h => ?_) (by simp) ?_
        · simpa using Separates.line hbody h
        · rw [byteLength_append, byteLength_line, hslash.1]
          omega
    by_cases hblock : ∃ cs', cs = '/' :: '*' :: cs'
    · obtain ⟨cs', rfl⟩ := hblock
      rw [skipGap]
      rcases skipGap_ofBlock offset (offset + 2) cs' with ⟨hend, hskip⟩ | ⟨body, rest, rfl, hbody, hskip⟩
      · rw [hskip]
        exact .opened .nil hend
      · rw [hskip]
        have hlater := ih rest.length (by simp; omega) (offset + 2 + byteLength body + 2) rest rfl
        refine hlater.after (['/', '*'] ++ (body ++ ['*', '/'])) (fun h => ?_) (by simp) ?_
        · simpa using Separates.block hbody h
        · rw [byteLength_append, byteLength_append, hslash.2.1, hslash.2.2]
          omega
    cases cs with
    | nil => exact .rest .nil
    | cons c cs =>
      have hplain : skipGap .plain offset (c :: cs) =
          if isBlank c then skipGap .plain (offset + c.utf8Size) cs else .ok (offset, c :: cs) := by
        rw [skipGap]
        · exact fun cs' hc hcs => hline ⟨cs', by rw [hc, hcs]⟩
        · exact fun cs' hc hcs => hblock ⟨cs', by rw [hc, hcs]⟩
      rw [hplain]
      by_cases hblank : isBlank c = true
      · rw [if_pos hblank]
        exact (ih cs.length (by simp) (offset + c.utf8Size) cs rfl).after [c] (.blank hblank) rfl rfl
      · rw [if_neg hblank]
        exact .rest .nil

/-! ## Tokens between gaps -/

/-- How a text ends after its last token: with a gap, with a gap and a comment that is never closed, or with a gap
and characters that form no token. -/
inductive EndsAs (offset : Nat) : List Char → Ending → Prop
  | complete {gap : List Char} : Separates true gap → EndsAs offset gap (.complete (offset + byteLength gap))
  | opened {gap body : List Char} : Separates false gap → ¬ Closed body →
      EndsAs offset (gap ++ '/' :: '*' :: body) (.broken ⟨.lexical .openComment,
        ⟨offset + byteLength gap, offset + byteLength gap + 2 + byteLength body⟩, none⟩)
  | broken {gap rest : List Char} {c : Char} {cause : LexicalCause} {span : Span} : Separates false gap →
      scanToken c rest = .broken cause span →
      EndsAs offset (gap ++ c :: rest) (.broken ⟨.lexical cause, span.shift (offset + byteLength gap), none⟩)

/-- A text laid out from an offset on: gaps and the characters of tokens, and then how the text ends. -/
inductive Tiled : Nat → List Char → Stream → Prop
  | ended {offset : Nat} {cs : List Char} {ending : Ending} : EndsAs offset cs ending → Tiled offset cs ⟨[], ending⟩
  | token {offset start stop : Nat} {gap taken cs : List Char} {kind : Token.Kind} {s : Stream} :
      Separates false gap → taken ≠ [] → start = offset + byteLength gap → stop = start + byteLength taken →
      Tiled stop cs s →
      Tiled offset (gap ++ (taken ++ cs)) (s.prepend [⟨kind, String.ofList taken, ⟨start, stop⟩⟩])

/-- **The tokens of a text and the gaps between them make up the text.** -/
theorem tiled_streamOf (offset : Nat) (cs : List Char) : Tiled offset cs (streamOf offset cs) := by
  induction hlen : cs.length using Nat.strong_induction_on generalizing offset cs with
  | h n ih =>
    rw [streamOf_eq]
    have hends := skipGap_ends offset cs
    generalize hgap : skipGap .plain offset cs = r at hends
    cases hends with
    | opened hsep hbody => exact .ended (.opened hsep hbody)
    | @rest gap rest hsep =>
      cases rest with
      | nil =>
        rw [List.append_nil]
        exact .ended (.complete hsep)
      | cons c rest =>
        cases htoken : scanToken c rest with
        | broken cause span =>
          rw [afterGap_broken htoken]
          exact .ended (.broken hsep htoken)
        | token kind taken after =>
          obtain ⟨htaken, hne⟩ := scanToken_eq htoken
          have hshort := length_after hgap htoken
          rw [afterGap_token htoken, htaken]
          exact .token hsep hne rfl rfl (ih after.length (hlen ▸ hshort) _ after rfl)

namespace Tiled

variable {offset : Nat} {cs : List Char} {s : Stream}

/-- A token stands where its characters do. -/
theorem place (h : Tiled offset cs s) {t : Token} (ht : t ∈ s.tokens) : t.lexeme.toList ≠ [] ∧
    ∃ before after, cs = before ++ t.lexeme.toList ++ after ∧ t.span.start = offset + byteLength before ∧
      t.span.stop = t.span.start + byteLength t.lexeme.toList := by
  induction h with
  | ended _ => cases ht
  | @token offset start stop gap taken cs kind s hgap hne hstart hstop _ ih =>
    rcases List.mem_cons.1 ht with rfl | hlater
    · refine ⟨by simpa using hne, gap, cs, ?_, hstart, ?_⟩
      · simp
      · simpa using hstop
    · obtain ⟨hne, before, after, hcs, hplace, hend⟩ := ih hlater
      refine ⟨hne, gap ++ taken ++ before, after, by simp [hcs], ?_, hend⟩
      rw [hplace, hstop, hstart, byteLength_append, byteLength_append]
      omega

/-- Each token stands behind those before it. -/
theorem ordered (h : Tiled offset cs s) : s.tokens.Pairwise fun t t' => t.span.stop ≤ t'.span.start := by
  induction h with
  | ended _ => exact .nil
  | token _ _ _ _ hlater ih =>
    refine .cons (fun t ht => ?_) ih
    obtain ⟨-, before, after, -, hstart, -⟩ := hlater.place ht
    rw [hstart]
    exact Nat.le_add_right _ _

theorem length_le (h : Tiled offset cs s) : s.tokens.length ≤ cs.length := by
  induction h with
  | ended _ => exact Nat.zero_le _
  | token _ hne _ _ _ ih =>
    have hpos := List.length_pos_of_ne_nil hne
    simp only [Stream.prepend, List.length_append, List.length_singleton]
    omega

/-- The gaps before the tokens, the tokens and the end of the text. -/
theorem woven (h : Tiled offset cs s) : ∃ gaps before tail, gaps.length = s.tokens.length ∧
    (∀ gap ∈ gaps, Separates false gap) ∧
    before = (List.zipWith (fun gap (t : Token) => gap ++ t.lexeme.toList) gaps s.tokens).flatten ∧
    cs = before ++ tail ∧ EndsAs (offset + byteLength before) tail s.ending := by
  induction h with
  | @ended offset cs ending hend => exact ⟨[], [], cs, rfl, by simp, rfl, rfl, hend⟩
  | @token offset start stop gap taken cs kind s hgap hne hstart hstop _ ih =>
    obtain ⟨gaps, before, tail, hlen, hgaps, hbefore, hcs, hend⟩ := ih
    refine ⟨gap :: gaps, gap ++ taken ++ before, tail, ?_, ?_, ?_, by simp [hcs], ?_⟩
    · simp [Stream.prepend, hlen]
    · simpa [hgap] using hgaps
    · simp [Stream.prepend, hbefore]
    · rw [byteLength_append, byteLength_append, ← Nat.add_assoc, ← Nat.add_assoc, ← hstart, ← hstop]
      exact hend

end Tiled

/-! ## Texts -/

theorem utf8Len_eq (cs : List Char) : String.utf8Len cs = byteLength cs := by
  induction cs with
  | nil => rfl
  | cons c cs ih => rw [String.utf8Len_cons, ih, byteLength, Nat.add_comm]

/-- What the tokens of a text tell about it. -/
structure Stream.Lossless (source : String) (s : Stream) : Prop where
  /-- The end, or what is broken, is reached after at most as many tokens as there are characters. -/
  calls : s.tokens.length ≤ source.length
  /-- Each token is a piece of the text, which starts and ends between two characters. -/
  lexemes : ∀ t ∈ s.tokens, t.span.start < t.span.stop ∧
    String.Pos.Raw.IsValid source ⟨t.span.start⟩ ∧ String.Pos.Raw.IsValid source ⟨t.span.stop⟩ ∧
    String.Pos.Raw.extract source ⟨t.span.start⟩ ⟨t.span.stop⟩ = t.lexeme
  /-- The tokens stand one after the other. -/
  ordered : s.tokens.Pairwise fun t t' => t.span.stop ≤ t'.span.start
  /-- The gaps and the tokens make up the text, up to its end or to what is broken. -/
  woven : ∃ gaps before tail, gaps.length = s.tokens.length ∧ (∀ gap ∈ gaps, Separates false gap) ∧
    before = (List.zipWith (fun gap (t : Token) => gap ++ t.lexeme.toList) gaps s.tokens).flatten ∧
    source.toList = before ++ tail ∧ EndsAs (byteLength before) tail s.ending
  /-- The token that stands for the end of the text is at its end. -/
  eof : ∀ length, s.ending = .complete length →
    s.ending.token = ⟨.eof, "", ⟨source.utf8ByteSize, source.utf8ByteSize⟩⟩

end Token

open Token

/-- **Reading a text into tokens loses nothing and comes to an end.** -/
theorem scan_is_lossless (source : String) : (scan source).Lossless source := by
  have htiled : Tiled 0 source.toList (scan source) := tiled_streamOf 0 source.toList
  obtain ⟨gaps, before, tail, hlen, hgaps, hbefore, hcs, hend⟩ := htiled.woven
  rw [Nat.zero_add] at hend
  refine ⟨?_, fun t ht => ?_, htiled.ordered, ⟨gaps, before, tail, hlen, hgaps, hbefore, hcs, hend⟩, fun n hn => ?_⟩
  · rw [← String.length_toList]
    exact htiled.length_le
  · obtain ⟨hne, before, after, hcs, hstart, hstop⟩ := htiled.place ht
    have hsource : source = String.ofList (before ++ t.lexeme.toList ++ after) := by
      rw [← hcs, String.ofList_toList]
    have hpos := byteLength_pos hne
    have hvalid : ∀ front later : List Char, before ++ t.lexeme.toList ++ after = front ++ later →
        String.Pos.Raw.IsValid source ⟨byteLength front⟩ := by
      intro front later hsplit
      rw [String.Pos.Raw.isValid_iff_exists_append, hsource, hsplit, String.ofList_append]
      exact ⟨_, _, rfl, by rw [String.rawEndPos_ofList, utf8Len_eq]⟩
    rw [hstop, hstart, Nat.zero_add]
    refine ⟨by omega, ?_, ?_, ?_⟩
    · exact hvalid before (t.lexeme.toList ++ after) (List.append_assoc _ _ _)
    · rw [← byteLength_append]
      exact hvalid _ after rfl
    · rw [← utf8Len_eq, ← utf8Len_eq]
      have hslice := String.extract_of_valid before t.lexeme.toList after
      rw [← hsource, String.ofList_toList] at hslice
      exact hslice
  · rw [hn] at hend ⊢
    have hsize : source.utf8ByteSize = byteLength before + byteLength tail := by
      rw [← byteLength_append, ← hcs, ← utf8Len_eq, String.utf8Len_toList]
    cases hend with
    | complete hgap => rw [hsize]; rfl

end HostScript
