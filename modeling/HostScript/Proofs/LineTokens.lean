import HostScript.Token.Scan
import Mathlib

/-!
# How far the scanner looks

A token is told by its own characters and the first one after it; only after a number, where a point may belong to
the number if a digit follows, two are needed. The end of a text counts as the end of a line there (`Follows`). So the
token at the front of a text is the same with any text after it that goes on alike (`local_scanToken`), and what is
broken at the front stays broken behind a line feed (`scanToken_line`). Gaps are passed over in the same way; only an
open comment, or a gap that reaches the end of the text, goes on behind the line feed.
-/

set_option autoImplicit false

namespace HostScript

open Text

theorem byteLength_append (l l' : List Char) : byteLength (l ++ l') = byteLength l + byteLength l' := by
  induction l with
  | nil => simp [byteLength]
  | cons c l ih => simp [byteLength, ih, Nat.add_assoc]

theorem byteLength_pos {l : List Char} (h : l ≠ []) : 0 < byteLength l := by
  cases l with
  | nil => exact absurd rfl h
  | cons c l => exact Nat.add_pos_left c.utf8Size_pos _

theorem byteLength_line (l : List Char) : byteLength (l ++ ['\n']) = byteLength l + 1 := byteLength_append l _

namespace Token

variable {c : Char} {span : Span} {cs rest taken : List Char} {kind : Token.Kind} {p : Char → Bool}
  {cause : LexicalCause}

/-! ## Kinds of tokens -/

/-- What was found is a token of some kind, or broken, but no comment. -/
def Found.Is (q : Token.Kind → Prop) : Found → Prop
  | .token kind _ _ => q kind
  | .broken cause _ => cause ≠ .openComment

theorem is_scanNumber (c : Char) (cs : List Char) : (scanNumber c cs).Is fun kind => ∃ n, kind = .number n := by
  have hdecimal : ∀ cs, (scanDecimal c cs).Is fun kind => ∃ n, kind = .number n := by
    intro cs
    unfold scanDecimal
    dsimp only
    split <;> simp [Found.Is]
  unfold scanNumber
  split
  · split
    · unfold scanHex
      dsimp only
      split <;> simp [Found.Is]
    · exact hdecimal _
  · exact hdecimal _

theorem is_scanText (before value cs : List Char) :
    (scanText before value cs).Is fun kind => ∃ s, kind = .text s := by
  fun_induction scanText before value cs <;> simp_all [Found.Is]

theorem is_scanChar (cs : List Char) : (scanChar cs).Is fun kind => ∃ c, kind = .char c := by
  have hclose : ∀ value taken cs, (closeChar value taken cs).Is fun kind => ∃ c, kind = .char c := by
    intro value taken cs
    unfold closeChar
    split <;> simp [Found.Is]
  fun_cases scanChar cs <;> simp_all [Found.Is]

theorem is_scanMark (c : Char) (cs : List Char) : (scanMark c cs).Is fun kind => ∃ m, kind = .mark m := by
  unfold scanMark
  dsimp only
  split
  · split
    · simp [Found.Is]
    · split <;> simp [Found.Is]
  · split <;> simp [Found.Is]

/-- The first character of a token says how it is read. -/
theorem scanToken_branches (c : Char) : (isWordStart c = true ∧ scanToken c = scanWord c) ∨ scanToken c = scanNumber c ∨
    (c = '"' ∧ scanToken c = scanText ['"'] []) ∨ (c = '\'' ∧ scanToken c = scanChar) ∨ scanToken c = scanMark c := by
  by_cases hword : isWordStart c = true
  · exact .inl ⟨hword, funext fun cs => if_pos hword⟩
  by_cases hdigit : c.isDigit = true
  · exact .inr (.inl (funext fun cs => (if_neg hword).trans (if_pos hdigit)))
  by_cases htext : c = '"'
  · subst htext
    exact .inr (.inr (.inl ⟨rfl, rfl⟩))
  by_cases hchar : c = '\''
  · subst hchar
    exact .inr (.inr (.inr (.inl ⟨rfl, rfl⟩)))
  · refine .inr (.inr (.inr (.inr (funext fun cs => ?_))))
    rw [scanToken, if_neg hword, if_neg hdigit, if_neg htext, if_neg hchar]

theorem scanToken_broken (h : scanToken c cs = .broken cause span) : cause ≠ .openComment := by
  rcases scanToken_branches c with ⟨-, heq⟩ | heq | ⟨-, heq⟩ | ⟨-, heq⟩ | heq <;> rw [heq] at h
  · cases h
  · exact (h ▸ is_scanNumber c cs : (Found.broken cause span).Is _)
  · exact (h ▸ is_scanText _ _ cs : (Found.broken cause span).Is _)
  · exact (h ▸ is_scanChar cs : (Found.broken cause span).Is _)
  · exact (h ▸ is_scanMark c cs : (Found.broken cause span).Is _)

/-! ## What comes after a token -/

/-- Two texts go on alike after a token: with the same character, where the end of a text counts as that of a line,
and after a point both with a digit or both without one. -/
structure Follows (rest rest' : List Char) : Prop where
  head : rest.headD '\n' = rest'.headD '\n'
  digit : rest.headD '\n' = '.' → (rest.tail.headD '\n').isDigit = (rest'.tail.headD '\n').isDigit

namespace Follows

variable {rest' : List Char}

theorem append (h : Follows rest rest') (v : List Char) : Follows (v ++ rest) (v ++ rest') := by
  rcases v with _ | ⟨x, _ | ⟨y, v⟩⟩
  · exact h
  · exact ⟨rfl, fun _ => congrArg Char.isDigit h.head⟩
  · exact ⟨rfl, fun _ => rfl⟩

/-- A line feed and more text change nothing. -/
theorem line (rest q : List Char) : Follows rest (rest ++ '\n' :: q) ∧ Follows (rest ++ '\n' :: q) rest := by
  rcases rest with _ | ⟨x, _ | ⟨y, rest⟩⟩
  · have hpoint : '\n' ≠ '.' := by decide
    exact ⟨⟨rfl, fun h => absurd h hpoint⟩, rfl, fun h => absurd h hpoint⟩
  · exact ⟨⟨rfl, fun _ => rfl⟩, rfl, fun _ => rfl⟩
  · exact ⟨⟨rfl, fun _ => rfl⟩, rfl, fun _ => rfl⟩

end Follows

/-- What is found after the characters `pre` holds no line feed but in them, and it does not depend on what comes after
it, as long as this goes on alike. -/
def Local (pre : List Char) (f : List Char → Found) : Prop :=
  ∀ cs kind taken rest, f cs = .token kind taken rest →
    ∃ body, cs = body ++ rest ∧ taken = pre ++ body ∧ '\n' ∉ body ∧
      ∀ rest', Follows rest rest' → f (body ++ rest') = .token kind taken rest'

/-! ## Words and marks -/

theorem feed_takeWhile (hp : p '\n' = false) (cs : List Char) : '\n' ∉ cs.takeWhile p := by
  intro h
  have hfeed := List.mem_takeWhile_imp h
  rw [hp] at hfeed
  cases hfeed

theorem takeWhile_local (hp : p '\n' = false) (h : Follows (cs.dropWhile p) rest) :
    (cs.takeWhile p ++ rest).takeWhile p = cs.takeWhile p ∧
      (cs.takeWhile p ++ rest).dropWhile p = rest := by
  have hall : ∀ a ∈ cs.takeWhile p, p a = true := fun a ha => List.mem_takeWhile_imp ha
  have hhead : p (rest.headD '\n') = false := by
    rw [← h.head]
    have hnot := List.head?_dropWhile_not p cs
    cases hd : cs.dropWhile p with
    | nil => exact hp
    | cons x l =>
      rw [hd] at hnot
      simpa using hnot
  rw [List.takeWhile_append_of_pos hall, List.dropWhile_append_of_pos hall]
  cases rest with
  | nil => simp
  | cons x l =>
    have hx : p x = false := hhead
    simp [hx]

theorem local_scanWord (c : Char) : Local [c] (scanWord c) := by
  have hword : isWordChar '\n' = false := by decide
  intro cs kind taken rest h
  unfold scanWord at h ⊢
  dsimp only at h ⊢
  injection h with hkind htaken hrest
  subst hrest
  refine ⟨cs.takeWhile isWordChar, (List.takeWhile_append_dropWhile ..).symm, htaken.symm, feed_takeWhile hword cs, ?_⟩
  intro rest' hrest'
  obtain ⟨htake, hdrop⟩ := takeWhile_local hword hrest'
  rw [htake, hdrop, hkind, htaken]

theorem doubleMark?_feed (c : Char) : doubleMark? c '\n' = none := by
  unfold doubleMark?
  split
  all_goals first | rfl | simp at *

theorem scanMark_eq (c : Char) (cs : List Char) : scanMark c cs =
    (doubleMark? c (cs.headD '\n')).elim ((singleMark? c).elim (.broken (.strayChar c) ⟨0, c.utf8Size⟩)
      fun m => .token (.mark m) [c] cs) fun m => .token (.mark m) [c, cs.headD '\n'] cs.tail := by
  cases cs with
  | nil =>
    rw [List.headD_nil, doubleMark?_feed]
    unfold scanMark
    cases singleMark? c <;> rfl
  | cons d ds =>
    simp only [scanMark, List.headD_cons]
    cases doubleMark? c d <;> cases singleMark? c <;> rfl

theorem local_scanMark (c : Char) : Local [c] (scanMark c) := by
  intro cs kind taken rest h
  rw [scanMark_eq] at h
  cases hdouble : doubleMark? c (cs.headD '\n') with
  | some m =>
    cases cs with
    | nil => cases (doubleMark?_feed c).symm.trans hdouble
    | cons d ds =>
      rw [hdouble] at h
      rw [List.headD_cons] at hdouble
      cases h
      refine ⟨[d], rfl, rfl, ?_, fun rest' _ => ?_⟩
      · rintro (_ | ⟨_, hmem⟩)
        · cases (doubleMark?_feed c).symm.trans hdouble
        · cases hmem
      · rw [scanMark_eq, List.singleton_append, List.headD_cons, hdouble]
        rfl
  | none =>
    rw [hdouble] at h
    cases hsingle : singleMark? c with
    | none =>
      rw [hsingle] at h
      cases h
    | some m =>
      rw [hsingle] at h
      cases h
      refine ⟨[], rfl, rfl, List.not_mem_nil, fun rest' hrest' => ?_⟩
      rw [List.nil_append, scanMark_eq, ← hrest'.head, hdouble, hsingle]
      rfl

/-! ## Numbers -/

theorem splitSuffix_local {letters : List Char} {suffix : Option Char}
    (hl : letters.contains '\n' = false) (h : splitSuffix letters cs = (suffix, rest)) :
    cs = suffix.toList ++ rest ∧ '\n' ∉ suffix.toList ∧
      ∀ rest', Follows rest rest' → splitSuffix letters (suffix.toList ++ rest') = (suffix, rest') := by
  have heq : ∀ cs, splitSuffix letters cs =
      if letters.contains (cs.headD '\n') then (some (cs.headD '\n'), cs.tail) else (none, cs) := by
    intro cs
    cases cs with
    | nil => rw [List.headD_nil, hl]; rfl
    | cons c cs => rfl
  rw [heq] at h
  by_cases hc : letters.contains (cs.headD '\n') = true
  · rw [if_pos hc] at h
    cases cs with
    | nil => cases hl.symm.trans hc
    | cons c cs =>
      cases h
      refine ⟨rfl, ?_, fun rest' _ => (heq _).trans (if_pos hc)⟩
      rintro (_ | ⟨_, hmem⟩)
      · cases hl.symm.trans hc
      · cases hmem
  · rw [if_neg hc] at h
    cases h
    refine ⟨rfl, List.not_mem_nil, fun rest' hrest' => (heq _).trans (if_neg ?_)⟩
    rwa [hrest'.head] at hc

theorem any_head (cs : List Char) : cs.head?.any Char.isDigit = (cs.headD '\n').isDigit := by
  cases cs <;> rfl

/-- After the end of a line there is nothing more to be split off. -/
theorem splitDecimal_end (h : Follows [] rest) (floating : Bool) :
    splitDecimal floating rest = ([], floating, rest) := by
  cases rest with
  | nil => rfl
  | cons c cs =>
    obtain rfl : '\n' = c := h.head
    unfold splitDecimal
    simp

/-- An exponent mark without a sign. -/
theorem splitDecimal_exponent (hc : (c == 'e' || c == 'E') = true)
    (hsign : ¬ (cs.headD '\n' == '+' || cs.headD '\n' == '-') = true) (floating : Bool) :
    splitDecimal floating (c :: cs) = (c :: (splitDecimal true cs).1, (splitDecimal true cs).2) := by
  have hdigit : ¬ (c.isDigit || c == '_') = true ∧ (c == '.') = false := by
    rcases Bool.or_eq_true_iff.1 hc with he | he <;> rw [beq_iff_eq.1 he] <;> decide
  cases cs with
  | nil =>
    show splitDecimal floating [c] = ([c], true, [])
    rw [splitDecimal]
    simp only [hdigit.1, hdigit.2, hc, if_true]
    rfl
  | cons s cs =>
    rw [List.headD_cons] at hsign
    rw [splitDecimal]
    simp only [hdigit.1, hdigit.2, hc, hsign, if_true]
    rfl

theorem splitDecimal_local {floating flag : Bool}
    (h : splitDecimal floating cs = (taken, flag, rest)) : cs = taken ++ rest ∧ '\n' ∉ taken ∧
      ∀ rest', Follows rest rest' → splitDecimal floating (taken ++ rest') = (taken, flag, rest') := by
  fun_induction splitDecimal floating cs generalizing taken flag rest with
  | case1 floating =>
    cases h
    exact ⟨rfl, List.not_mem_nil, fun rest' hrest' => splitDecimal_end hrest' floating⟩
  | case2 floating c cs hc taken1 flag1 rest1 hs ih =>
    cases h
    obtain ⟨rfl, hfeed, hlocal⟩ := ih hs
    refine ⟨rfl, List.not_mem_cons_of_ne_of_not_mem ?_ hfeed, fun rest' hrest' => ?_⟩
    · rintro rfl
      exact absurd hc (by decide)
    · unfold splitDecimal
      simp only [List.cons_append, hc, hlocal rest' hrest', if_true]
  | case3 floating c cs hc hdot taken1 flag1 rest1 hs ih =>
    cases h
    obtain ⟨rfl, hfeed, hlocal⟩ := ih hs
    refine ⟨rfl, List.not_mem_cons_of_ne_of_not_mem ?_ hfeed, fun rest' hrest' => ?_⟩
    · rintro rfl
      simp at hdot
    · rw [any_head, (hrest'.append taken1).head, ← any_head] at hdot
      unfold splitDecimal
      simp only [List.cons_append, hc, hdot, hlocal rest' hrest', if_true]
      rfl
  | case4 floating c hc he s cs hsign taken1 flag1 rest1 hs hdot ih =>
    cases h
    obtain ⟨rfl, hfeed, hlocal⟩ := ih hs
    refine ⟨rfl, List.not_mem_cons_of_ne_of_not_mem ?_ (List.not_mem_cons_of_ne_of_not_mem ?_ hfeed),
      fun rest' hrest' => ?_⟩
    · rintro rfl
      exact absurd he (by decide)
    · rintro rfl
      exact absurd hsign (by decide)
    · have hdot' : ¬ (c == '.' && !floating && (s :: (taken1 ++ rest')).head?.any Char.isDigit) = true := hdot
      unfold splitDecimal
      simp only [List.cons_append, hc, hdot', he, hsign, hlocal rest' hrest', if_true]
      rfl
  | case5 floating c hc he s cs hsign taken1 flag1 rest1 hs hdot ih =>
    cases h
    obtain ⟨hcs, hfeed, hlocal⟩ := ih hs
    refine ⟨by rw [hcs]; rfl, List.not_mem_cons_of_ne_of_not_mem ?_ hfeed, fun rest' hrest' => ?_⟩
    · rintro rfl
      exact absurd he (by decide)
    · rw [List.cons_append, splitDecimal_exponent he, hlocal rest' hrest']
      rw [← (hrest'.append taken1).head, ← hcs]
      exact hsign
  | case6 floating c hc he hdot =>
    cases h
    refine ⟨rfl, List.not_mem_cons_of_ne_of_not_mem ?_ List.not_mem_nil, fun rest' hrest' => ?_⟩
    · rintro rfl
      exact absurd he (by decide)
    · rw [List.singleton_append, splitDecimal_exponent he, splitDecimal_end hrest']
      rw [← hrest'.head]
      decide
  | case7 floating c cs hc hdot he =>
    cases h
    refine ⟨rfl, List.not_mem_nil, fun rest' hrest' => ?_⟩
    cases rest' with
    | nil => rfl
    | cons d ds =>
      obtain rfl : c = d := hrest'.head
      have hdot' : ¬ (c == '.' && !floating && ds.head?.any Char.isDigit) = true := by
        by_cases hpoint : c = '.'
        · have hdigit : (cs.headD '\n').isDigit = (ds.headD '\n').isDigit := hrest'.digit hpoint
          rwa [any_head, ← hdigit, ← any_head]
        · simp [hpoint]
      unfold splitDecimal
      simp only [List.nil_append, hc, hdot', he]
      rfl

theorem local_scanHex (zero x : Char) : Local [zero, x] (scanHex zero x) := by
  have hhex : isHexChar '\n' = false := by decide
  intro cs kind taken rest h
  unfold scanHex at h ⊢
  generalize hsuffix : splitSuffix ['L', 'l'] (cs.dropWhile isHexChar) = r at h
  obtain ⟨suffix, rest⟩ := r
  dsimp only at h
  split at h
  · rename_i n hn
    cases h
    obtain ⟨hdrop, hfeed, hlocal⟩ := splitSuffix_local (by decide) hsuffix
    refine ⟨cs.takeWhile isHexChar ++ suffix.toList, ?_, rfl, ?_, fun rest' hrest' => ?_⟩
    · rw [List.append_assoc, ← hdrop, List.takeWhile_append_dropWhile]
    · exact fun hmem => (List.mem_append.1 hmem).elim (feed_takeWhile hhex cs) hfeed
    · have hafter := hrest'.append suffix.toList
      rw [← hdrop] at hafter
      obtain ⟨htake, hdrop'⟩ := takeWhile_local hhex hafter
      rw [List.append_assoc, htake, hdrop', hlocal rest' hrest']
      dsimp only
      rw [hn]
  · cases h

theorem local_scanDecimal (first : Char) : Local [first] (scanDecimal first) := by
  intro cs kind taken rest h
  unfold scanDecimal at h ⊢
  generalize hsplit : splitDecimal false cs = r at h
  obtain ⟨digits, flag, after⟩ := r
  dsimp only at h
  generalize hsuffix : splitSuffix ['L', 'l', 'F', 'f', 'D', 'd'] after = r at h
  obtain ⟨suffix, rest⟩ := r
  split at h
  · rename_i n hn
    cases h
    obtain ⟨rfl, hfeed, hlocal⟩ := splitSuffix_local (by decide) hsuffix
    obtain ⟨rfl, hfeed', hlocal'⟩ := splitDecimal_local hsplit
    refine ⟨digits ++ suffix.toList, (List.append_assoc ..).symm, rfl, ?_, fun rest' hrest' => ?_⟩
    · exact fun hmem => (List.mem_append.1 hmem).elim hfeed' hfeed
    · rw [List.append_assoc, hlocal' _ (hrest'.append suffix.toList)]
      dsimp only
      rw [hlocal rest' hrest']
      rw [hn]
  · cases h

theorem scanNumber_eq (first : Char) (cs : List Char) : scanNumber first cs =
    if first == '0' && (cs.headD '\n' == 'x' || cs.headD '\n' == 'X') then scanHex first (cs.headD '\n') cs.tail
    else scanDecimal first cs := by
  cases cs with
  | nil => simp [scanNumber]
  | cons x cs => rfl

theorem local_scanNumber (first : Char) : Local [first] (scanNumber first) := by
  intro cs kind taken rest h
  rw [scanNumber_eq] at h
  split at h
  · rename_i hx
    cases cs with
    | nil => simp at hx
    | cons x cs =>
      rw [List.headD_cons] at hx
      obtain ⟨body, rfl, rfl, hfeed, hlocal⟩ := local_scanHex first x _ _ _ _ h
      refine ⟨x :: body, rfl, rfl, List.not_mem_cons_of_ne_of_not_mem ?_ hfeed, fun rest' hrest' => ?_⟩
      · rintro rfl
        simp at hx
      · rw [scanNumber_eq, List.cons_append, List.headD_cons, if_pos hx]
        exact hlocal rest' hrest'
  · rename_i hx
    obtain ⟨body, rfl, rfl, hfeed, hlocal⟩ := local_scanDecimal first _ _ _ _ h
    refine ⟨body, rfl, rfl, hfeed, fun rest' hrest' => ?_⟩
    rw [(hrest'.append body).head] at hx
    rw [scanNumber_eq, if_neg hx, hlocal rest' hrest']

/-! ## Literals in quotes -/

theorem ne_feed_of_escaped {e : Char} (h : escaped? c = some e) : '\n' ≠ c := by
  rintro rfl
  cases h

theorem local_scanText (before value : List Char) : Local before.reverse (scanText before value) := by
  intro cs kind taken rest h
  fun_induction scanText before value cs with
  | case1 before value => cases h
  | case2 before value cs =>
    cases h
    exact ⟨['"'], rfl, List.reverse_cons, by decide, fun _ _ => rfl⟩
  | case3 before value => cases h
  | case4 before value c cs e he ih =>
    obtain ⟨body, rfl, rfl, hfeed, hlocal⟩ := ih h
    refine ⟨'\\' :: c :: body, rfl, by simp, ?_, fun rest' hrest' => ?_⟩
    · exact List.not_mem_cons_of_ne_of_not_mem (by decide)
        (List.not_mem_cons_of_ne_of_not_mem (ne_feed_of_escaped he) hfeed)
    · simp only [List.cons_append, scanText, he]
      exact hlocal rest' hrest'
  | case5 before value c cs he => cases h
  | case6 before value cs => cases h
  | case7 before value c cs hquote hend hescape hfeed ih =>
    have hslash : c ≠ '\\' := by
      intro hc
      cases cs with
      | nil => exact hend hc rfl
      | cons d ds => exact hescape d ds hc rfl
    obtain ⟨body, rfl, rfl, hbody, hlocal⟩ := ih h
    refine ⟨c :: body, rfl, by simp, List.not_mem_cons_of_ne_of_not_mem (Ne.symm hfeed) hbody, fun rest' hrest' => ?_⟩
    rw [List.cons_append, scanText, if_neg hfeed]
    · exact hlocal rest' hrest'
    · exact hquote
    · exact fun hc _ => hslash hc
    · exact fun _ _ hc _ => hslash hc

theorem local_closeChar (value : Char) (taken : List Char) : Local taken (closeChar value taken) := by
  intro cs kind taken' rest h
  unfold closeChar at h
  split at h
  · cases h
    exact ⟨['\''], rfl, rfl, by decide, fun _ _ => rfl⟩
  · cases h

theorem local_scanChar : Local ['\''] scanChar := by
  intro cs kind taken rest h
  fun_cases scanChar cs with
  | case1 => cases h
  | case2 => cases h
  | case3 => cases h
  | case4 => cases h
  | case5 c cs e he =>
    simp only [scanChar, he] at h
    obtain ⟨body, rfl, rfl, hfeed, hlocal⟩ := local_closeChar _ _ _ _ _ _ h
    refine ⟨'\\' :: c :: body, rfl, rfl, ?_, fun rest' hrest' => ?_⟩
    · exact List.not_mem_cons_of_ne_of_not_mem (by decide)
        (List.not_mem_cons_of_ne_of_not_mem (ne_feed_of_escaped he) hfeed)
    · simp only [List.cons_append, scanChar, he]
      exact hlocal rest' hrest'
  | case6 c cs he =>
    simp only [scanChar, he] at h
    cases h
  | case7 c cs hquote hfeed hend hescape =>
    have hslash : c ≠ '\\' := by
      intro hc
      cases cs with
      | nil => exact hend hc rfl
      | cons d ds => exact hescape d ds hc rfl
    have hplain : ∀ cs, scanChar (c :: cs) = closeChar c ['\'', c] cs := by
      intro cs
      rw [scanChar]
      · exact hquote
      · exact hfeed
      · exact fun hc _ => hslash hc
      · exact fun _ _ hc _ => hslash hc
    rw [hplain] at h
    obtain ⟨body, rfl, rfl, hbody, hlocal⟩ := local_closeChar _ _ _ _ _ _ h
    refine ⟨c :: body, rfl, rfl, List.not_mem_cons_of_ne_of_not_mem (Ne.symm hfeed) hbody, fun rest' hrest' => ?_⟩
    rw [List.cons_append, hplain]
    exact hlocal rest' hrest'

/-! ## Tokens -/

theorem local_scanToken (c : Char) : Local [c] (scanToken c) := by
  rcases scanToken_branches c with ⟨-, heq⟩ | heq | ⟨rfl, heq⟩ | ⟨rfl, heq⟩ | heq <;> rw [heq]
  · exact local_scanWord c
  · exact local_scanNumber c
  · exact local_scanText ['"'] []
  · exact local_scanChar
  · exact local_scanMark c

theorem scanToken_eq (h : scanToken c cs = .token kind taken rest) :
    c :: cs = taken ++ rest ∧ taken ≠ [] := by
  obtain ⟨body, rfl, rfl, -⟩ := local_scanToken c cs kind taken rest h
  exact ⟨rfl, List.cons_ne_nil _ _⟩

/-- The token at the front of a text stays the same when a line feed and more text come after the text. -/
theorem scanToken_line (q : List Char) (h : scanToken c cs = .token kind taken rest) :
    scanToken c (cs ++ '\n' :: q) = .token kind taken (rest ++ '\n' :: q) := by
  obtain ⟨body, rfl, -, -, hlocal⟩ := local_scanToken c cs kind taken rest h
  rw [List.append_assoc]
  exact hlocal _ (Follows.line rest q).1

/-- What is broken at the front of a text stays broken. -/
theorem scanToken_broken_line (q : List Char) (h : scanToken c cs = .broken cause span) :
    ∃ cause' span', scanToken c (cs ++ '\n' :: q) = .broken cause' span' := by
  cases hline : scanToken c (cs ++ '\n' :: q) with
  | broken cause' span' => exact ⟨cause', span', rfl⟩
  | token kind taken rest =>
    -- the token does not hold the line feed, so it would have been found without it
    obtain ⟨body, hcs, -, hfeed, hlocal⟩ := local_scanToken c _ kind taken rest hline
    obtain ⟨r, rfl, hrest⟩ | ⟨r, rfl, hr⟩ := List.append_eq_append_iff.1 hcs
    · cases r with
      | nil =>
        rw [List.append_nil] at hlocal
        have hsame := hlocal []
          (by rw [show rest = [] ++ '\n' :: q by simpa using hrest.symm]; exact (Follows.line [] q).2)
        rw [List.append_nil, h] at hsame
        cases hsame
      | cons d r =>
        obtain ⟨rfl, -⟩ := List.cons.inj hrest
        simp at hfeed
    · have hsame := hlocal r (hr ▸ (Follows.line r q).2)
      rw [h] at hsame
      cases hsame

/-! ## Gaps -/

/-- What comes after the gap at the front of a text, and after that of the text with a line feed and `q` behind it.
Only a gap that reaches the end of the text goes on behind the line feed. -/
inductive GapStays (q : List Char) (offset : Nat) (cs : List Char) :
    Except Diagnostic (Nat × List Char) → Except Diagnostic (Nat × List Char) → Prop
  | found {c : Char} {rest : List Char} (pre : List Char) (h : cs = pre ++ c :: rest) :
      GapStays q offset cs (.ok (offset + byteLength pre, c :: rest))
        (.ok (offset + byteLength pre, c :: (rest ++ '\n' :: q)))
  | ended : GapStays q offset cs (.ok (offset + byteLength cs, []))
      (skipGap .plain (offset + byteLength cs + 1) q)
  | opened (start : Nat) : GapStays q offset cs
      (.error ⟨.lexical .openComment, ⟨start, offset + byteLength cs⟩, none⟩)
      (skipGap (.block start) (offset + byteLength cs + 1) q)

section Gaps

variable {q : List Char} {offset : Nat} {r r' : Except Diagnostic (Nat × List Char)}

theorem GapStays.after (pre : List Char) (h : GapStays q (offset + byteLength pre) cs r r') :
    GapStays q offset (pre ++ cs) r r' := by
  cases h with
  | found pre' h =>
    rw [Nat.add_assoc, ← byteLength_append]
    exact .found _ (by rw [h, List.append_assoc])
  | ended =>
    rw [Nat.add_assoc offset, ← byteLength_append]
    exact .ended
  | opened start =>
    rw [Nat.add_assoc offset, ← byteLength_append]
    exact .opened start

theorem skipGap_plain_cons (offset : Nat) (hline : ∀ cs', c = '/' → cs = '/' :: cs' → False)
    (hblock : ∀ cs', c = '/' → cs = '*' :: cs' → False) (q : List Char) :
    skipGap .plain offset (c :: (cs ++ '\n' :: q)) =
      if isBlank c then skipGap .plain (offset + c.utf8Size) (cs ++ '\n' :: q)
      else .ok (offset, c :: (cs ++ '\n' :: q)) := by
  rw [skipGap]
  · intro cs' hc h
    cases cs with
    | nil => cases h
    | cons d ds => exact hline ds hc (by rw [(List.cons.inj h).1])
  · intro cs' hc h
    cases cs with
    | nil => cases h
    | cons d ds => exact hblock ds hc (by rw [(List.cons.inj h).1])

theorem skipGap_block_cons (opened offset : Nat) (hclose : ∀ cs', c = '*' → cs = '/' :: cs' → False)
    (q : List Char) : skipGap (.block opened) offset (c :: (cs ++ '\n' :: q)) =
      skipGap (.block opened) (offset + c.utf8Size) (cs ++ '\n' :: q) := by
  rw [skipGap]
  intro cs' hc h
  cases cs with
  | nil => cases h
  | cons d ds => exact hclose ds hc (by rw [(List.cons.inj h).1])

theorem skipGap_line (q : List Char) (gap : Gap) (offset : Nat) (cs : List Char) :
    GapStays q offset cs (skipGap gap offset cs) (skipGap gap offset (cs ++ '\n' :: q)) := by
  fun_induction skipGap gap offset cs with
  | case1 opened offset => exact .opened opened
  | case2 gap offset hgap =>
    cases gap with
    | plain => exact .ended
    | line => exact .ended
    | block opened => exact absurd rfl (hgap opened)
  | case3 offset cs ih => exact .after ['/', '/'] ih
  | case4 offset cs ih => exact .after ['/', '*'] ih
  | case5 offset c cs hline hblock hblank ih =>
    rw [List.cons_append, skipGap_plain_cons offset hline hblock, if_pos hblank]
    exact .after [c] ih
  | case6 offset c cs hline hblock hblank =>
    rw [List.cons_append, skipGap_plain_cons offset hline hblock, if_neg hblank]
    exact .found [] rfl
  | case7 offset c cs ih => exact .after [c] ih
  | case8 opened offset cs ih => exact .after ['*', '/'] ih
  | case9 opened offset c cs hclose ih =>
    rw [List.cons_append, skipGap_block_cons opened offset hclose]
    exact .after [c] ih

end Gaps

end Token

end HostScript
