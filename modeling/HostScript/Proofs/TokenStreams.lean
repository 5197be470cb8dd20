import HostScript.Proofs.LineTokens
import HostScript.Proofs.Readers
import HostScript.Proofs.Placement

/-!
# Streams of tokens

The tokens of the characters from an offset on, without a budget (`streamOf`). They can be taken one by one
(`streamOf_split`), they do not depend on the offset except for their places (`streamOf_shift`), and a line feed with
more text after it leaves them as they are: then the tokens of the rest come after them, or what follows an open
comment, or nothing if the text is broken (`streamOf_line`).
-/

set_option autoImplicit false

namespace HostScript

namespace Token

variable {gap : Gap} {offset start : Nat} {c : Char} {t : Token} {after cs rest taken : List Char}
  {kind : Token.Kind}

/-- The stream with further tokens at its front. -/
def Stream.prepend (ts : List Token) (s : Stream) : Stream := ⟨ts ++ s.tokens, s.ending⟩

theorem Stream.prepend_prepend (ts ts' : List Token) (s : Stream) :
    (s.prepend ts').prepend ts = s.prepend (ts ++ ts') := by
  simp [Stream.prepend]

/-- The tokens of the characters from an offset on. -/
def streamOf (offset : Nat) (cs : List Char) : Stream := scanFrom cs.length offset cs

/-- The tokens after a gap. -/
def afterGap : Except Diagnostic (Nat × List Char) → Stream
  | .error d => ⟨[], .broken d⟩
  | .ok (start, []) => ⟨[], .complete start⟩
  | .ok (start, c :: rest) =>
    match scanToken c rest with
    | .broken cause span => ⟨[], .broken ⟨.lexical cause, span.shift start, none⟩⟩
    | .token kind taken after =>
      (streamOf (start + byteLength taken) after).prepend
        [⟨kind, String.ofList taken, ⟨start, start + byteLength taken⟩⟩]

/-- What a gap leaves is the end of the text. -/
theorem skipGap_eq (h : skipGap gap offset cs = .ok (start, rest)) :
    ∃ pre, cs = pre ++ rest ∧ start = offset + byteLength pre := by
  have hstays := skipGap_line [] gap offset cs
  rw [h] at hstays
  generalize skipGap gap offset (cs ++ ['\n']) = r at hstays
  cases hstays with
  | found pre hcs => exact ⟨pre, hcs, rfl⟩
  | ended => exact ⟨cs, (List.append_nil cs).symm, rfl⟩

/-- A gap and a token take at least one character. -/
theorem length_after (hgap : skipGap gap offset cs = .ok (start, c :: rest))
    (htoken : scanToken c rest = .token kind taken after) : after.length < cs.length := by
  obtain ⟨pre, rfl, -⟩ := skipGap_eq hgap
  obtain ⟨htaken, hne⟩ := scanToken_eq htoken
  have hpos := List.length_pos_of_ne_nil hne
  rw [htaken, List.length_append, List.length_append]
  omega

theorem scanFrom_eq {b : Nat} (hb : cs.length ≤ b) (offset : Nat) :
    scanFrom b offset cs = afterGap (skipGap .plain offset cs) := by
  induction b using Nat.strong_induction_on generalizing offset cs with
  | h b ih =>
    unfold scanFrom
    cases hgap : skipGap .plain offset cs with
    | error d => rfl
    | ok r =>
      obtain ⟨start, _ | ⟨c, rest⟩⟩ := r
      · rfl
      cases b with
      | zero =>
        obtain ⟨pre, hcs, -⟩ := skipGap_eq hgap
        rw [List.length_eq_zero_iff.1 (Nat.le_zero.1 hb)] at hcs
        simp at hcs
      | succ b =>
        simp only [afterGap]
        cases htoken : scanToken c rest with
        | broken cause span => rfl
        | token kind taken after =>
          have hlen := length_after hgap htoken
          dsimp only
          rw [streamOf, ih b (by omega) (by omega), ih after.length (by omega) le_rfl]
          rfl

/-- The tokens of a text are those after its first gap. -/
theorem streamOf_eq (offset : Nat) (cs : List Char) :
    streamOf offset cs = afterGap (skipGap .plain offset cs) := scanFrom_eq le_rfl offset

/-! ## Token by token -/

/-- A stream, which ends at `stop`, and that of the text with a line feed and `q` after it. -/
inductive Stream.Stays (q : List Char) (stop : Nat) : Stream → Stream → Prop
  | complete {ts : List Token} :
      Stream.Stays q stop ⟨ts, .complete stop⟩ ((streamOf (stop + 1) q).prepend ts)
  | opened {ts : List Token} (start : Nat) :
      Stream.Stays q stop ⟨ts, .broken ⟨.lexical .openComment, ⟨start, stop⟩, none⟩⟩
        ((afterGap (skipGap (.block start) (stop + 1) q)).prepend ts)
  | broken {ts : List Token} {d d' : Diagnostic} (h : d.incomplete = false) (h' : d'.incomplete = false) :
      Stream.Stays q stop ⟨ts, .broken d⟩ ⟨ts, .broken d'⟩

theorem Stream.Stays.prepend {q : List Char} {stop : Nat} {s s' : Stream} (h : s.Stays q stop s')
    (ts : List Token) : (s.prepend ts).Stays q stop (s'.prepend ts) := by
  cases h with
  | complete =>
    rw [Stream.prepend_prepend]
    exact .complete
  | opened start =>
    rw [Stream.prepend_prepend]
    exact .opened start
  | broken h h' => exact .broken h h'

/-- The first token of a text, and the characters after it. -/
structure First (offset : Nat) (cs : List Char) (t : Token) (cs' : List Char) : Prop where
  split : ∃ pre, cs = pre ++ cs' ∧ pre ≠ [] ∧ t.span.stop = offset + byteLength pre
  place : offset ≤ t.span.start ∧ t.span.start < t.span.stop
  stream : streamOf offset cs = (streamOf t.span.stop cs').prepend [t]
  line : ∀ q, streamOf offset (cs ++ '\n' :: q) = (streamOf t.span.stop (cs' ++ '\n' :: q)).prepend [t]

theorem afterGap_token (h : scanToken c rest = .token kind taken after) :
    afterGap (.ok (start, c :: rest)) = (streamOf (start + byteLength taken) after).prepend
      [⟨kind, String.ofList taken, ⟨start, start + byteLength taken⟩⟩] := by
  simp only [afterGap, h]

theorem afterGap_broken {cause : LexicalCause} {span : Span} (h : scanToken c rest = .broken cause span) :
    afterGap (.ok (start, c :: rest)) = ⟨[], .broken ⟨.lexical cause, span.shift start, none⟩⟩ := by
  simp only [afterGap, h]

/-- After a gap there is no token, or a shorter text behind one. -/
theorem afterGap_cases (gap : Gap) (offset : Nat) (cs : List Char) :
    (afterGap (skipGap gap offset cs)).tokens = [] ∨ ∃ start c rest kind taken after,
      skipGap gap offset cs = .ok (start, c :: rest) ∧ scanToken c rest = .token kind taken after ∧
      afterGap (skipGap gap offset cs) = (streamOf (start + byteLength taken) after).prepend
        [⟨kind, String.ofList taken, ⟨start, start + byteLength taken⟩⟩] := by
  cases hgap : skipGap gap offset cs with
  | error d => exact .inl rfl
  | ok r =>
    obtain ⟨start, _ | ⟨c, rest⟩⟩ := r
    · exact .inl rfl
    · cases htoken : scanToken c rest with
      | broken cause span => exact .inl (by rw [afterGap_broken htoken])
      | token kind taken after => exact .inr ⟨start, c, rest, kind, taken, after, rfl, htoken, afterGap_token htoken⟩

theorem first_token (hgap : skipGap .plain offset cs = .ok (start, c :: rest))
    (htoken : scanToken c rest = .token kind taken after) :
    First offset cs ⟨kind, String.ofList taken, ⟨start, start + byteLength taken⟩⟩ after := by
  obtain ⟨pre, hpre, hstart⟩ := skipGap_eq hgap
  obtain ⟨htaken, hne⟩ := scanToken_eq htoken
  have hpos := byteLength_pos hne
  refine ⟨⟨pre ++ taken, ?_, ?_, ?_⟩, ⟨by dsimp only; omega, by dsimp only; omega⟩, ?_, fun q => ?_⟩
  · rw [hpre, htaken, List.append_assoc]
  · exact List.append_ne_nil_of_right_ne_nil pre hne
  · rw [byteLength_append, hstart, Nat.add_assoc]
  · rw [streamOf_eq, hgap, afterGap_token htoken]
  · have hline := skipGap_line q .plain offset cs
    rw [streamOf_eq]
    rw [hgap] at hline
    generalize skipGap .plain offset (cs ++ '\n' :: q) = r at hline ⊢
    cases hline with
    | found _ _ => rw [afterGap_token (scanToken_line q htoken)]

/-- A text that starts with no token is at its end, in an open comment, or broken. -/
theorem stays_of_no_token
    (h : ∀ start c rest kind taken after, skipGap .plain offset cs = .ok (start, c :: rest) →
      scanToken c rest ≠ .token kind taken after) (q : List Char) :
    (streamOf offset cs).Stays q (offset + byteLength cs) (streamOf offset (cs ++ '\n' :: q)) := by
  have hline := skipGap_line q .plain offset cs
  rw [streamOf_eq, streamOf_eq]
  generalize skipGap .plain offset (cs ++ '\n' :: q) = r at hline ⊢
  generalize hcs : skipGap .plain offset cs = r' at hline ⊢
  cases hline with
  | opened start => exact .opened start
  | ended =>
    rw [← streamOf_eq]
    exact .complete
  | @found c rest pre hpre =>
    cases hfound : scanToken c rest with
    | token kind taken after => exact absurd hfound (h _ c rest kind taken after hcs)
    | broken cause span =>
      obtain ⟨cause', span', hfound'⟩ := scanToken_broken_line q hfound
      rw [afterGap_broken hfound, afterGap_broken hfound']
      exact .broken (decide_eq_false (scanToken_broken hfound)) (decide_eq_false (scanToken_broken hfound'))

/-- A text starts with a token, or it has none. -/
theorem first_or_end (offset : Nat) (cs : List Char) :
    (∃ t cs', First offset cs t cs') ∨ (streamOf offset cs).tokens = [] ∧
      ∀ q, (streamOf offset cs).Stays q (offset + byteLength cs) (streamOf offset (cs ++ '\n' :: q)) := by
  rcases afterGap_cases .plain offset cs with hnil | ⟨start, c, rest, kind, taken, after, hgap, htoken, -⟩
  · refine .inr ⟨by rwa [streamOf_eq], stays_of_no_token fun start c rest kind taken after hgap htoken => ?_⟩
    rw [hgap, afterGap_token htoken] at hnil
    cases hnil
  · exact .inl ⟨_, _, first_token hgap htoken⟩

/-- More text after a line feed leaves the tokens of a text as they are. -/
theorem streamOf_line (q : List Char) (offset : Nat) (cs : List Char) :
    (streamOf offset cs).Stays q (offset + byteLength cs) (streamOf offset (cs ++ '\n' :: q)) := by
  induction hlen : cs.length using Nat.strong_induction_on generalizing offset cs with
  | h n ih =>
    rcases first_or_end offset cs with ⟨t, cs', hfirst⟩ | ⟨-, hend⟩
    · obtain ⟨pre, hcs, hne, hstop⟩ := hfirst.split
      have hpos := List.length_pos_of_ne_nil hne
      have hshort : cs'.length < n := by
        rw [← hlen, hcs, List.length_append]
        omega
      rw [hfirst.stream, hfirst.line, hcs, byteLength_append, ← Nat.add_assoc, ← hstop]
      exact (ih _ hshort _ _ rfl).prepend [t]
    · exact hend q

/-- Tokens can be split off the front of a text. -/
theorem streamOf_split {ts ts' : List Token} (h : (streamOf offset cs).tokens = ts ++ ts') :
    ∃ pre cs', cs = pre ++ cs' ∧ lastStop offset ts = offset + byteLength pre ∧
      (streamOf (lastStop offset ts) cs').tokens = ts' ∧
      ∀ q, streamOf offset (cs ++ '\n' :: q) = (streamOf (lastStop offset ts) (cs' ++ '\n' :: q)).prepend ts := by
  induction ts generalizing offset cs with
  | nil => exact ⟨[], cs, rfl, rfl, h, fun q => rfl⟩
  | cons t ts ih =>
    rcases first_or_end offset cs with ⟨t', cs1, hfirst⟩ | ⟨hend, -⟩
    · rw [hfirst.stream] at h
      obtain ⟨rfl, htokens⟩ := List.cons.inj h
      obtain ⟨pre1, rfl, -, hstop⟩ := hfirst.split
      obtain ⟨pre, cs', rfl, hlast, htokens', hline⟩ := ih htokens
      refine ⟨pre1 ++ pre, cs', (List.append_assoc _ _ _).symm, ?_, htokens', fun q => ?_⟩
      · rw [byteLength_append, ← Nat.add_assoc, ← hstop]
        exact hlast
      · rw [hfirst.line, hline, Stream.prepend_prepend]
        rfl
    · rw [hend] at h
      cases h

/-- Every token was found behind the offset from which the text is read. -/
theorem exists_of_mem_afterGap (h : t ∈ (afterGap (skipGap gap offset cs)).tokens) :
    ∃ start c rest kind taken after, offset ≤ start ∧ scanToken c rest = .token kind taken after ∧
      t = ⟨kind, String.ofList taken, ⟨start, start + byteLength taken⟩⟩ := by
  induction hlen : cs.length using Nat.strong_induction_on generalizing gap offset cs with
  | h n ih =>
    rcases afterGap_cases gap offset cs with hnil | ⟨start, c, rest, kind, taken, after, hgap, htoken, hstream⟩
    · rw [hnil] at h
      cases h
    · obtain ⟨pre, -, hstart⟩ := skipGap_eq hgap
      rw [hstream, streamOf_eq] at h
      rcases List.mem_cons.1 h with rfl | hlater
      · exact ⟨start, c, rest, kind, taken, after, by omega, htoken, rfl⟩
      · obtain ⟨start', c', rest', kind', taken', after', hle, hfound⟩ :=
          ih _ (hlen ▸ length_after hgap htoken) hlater rfl
        exact ⟨start', c', rest', kind', taken', after', by omega, hfound⟩

theorem afterGap_place (h : t ∈ (afterGap (skipGap gap offset cs)).tokens) :
    offset ≤ t.span.start ∧ t.span.start < t.span.stop := by
  obtain ⟨start, c, rest, kind, taken, after, hle, htoken, rfl⟩ := exists_of_mem_afterGap h
  have hpos := byteLength_pos (scanToken_eq htoken).2
  exact ⟨hle, by dsimp only; omega⟩

/-- A line feed at the end of a text adds no token; where the text can be read to its end with the line feed, it can
be read to its end without it, and what comes after the line feed is read on its own. -/
theorem streamOf_feed (offset : Nat) (cs : List Char) :
    (streamOf offset (cs ++ ['\n'])).tokens = (streamOf offset cs).tokens ∧
    ∀ n, (streamOf offset (cs ++ ['\n'])).ending = .complete n →
      (∃ n, (streamOf offset cs).ending = .complete n) ∧
      ∀ q, streamOf offset (cs ++ '\n' :: q) =
        (streamOf (offset + byteLength cs + 1) q).prepend (streamOf offset cs).tokens := by
  have hfeed := streamOf_line [] offset cs
  have hline := fun q => streamOf_line q offset cs
  generalize streamOf offset cs = s at hfeed hline
  generalize streamOf offset (cs ++ ['\n']) = s' at hfeed
  cases hfeed with
  | complete =>
    refine ⟨List.append_nil _, fun _ _ => ⟨⟨_, rfl⟩, fun q => ?_⟩⟩
    have hq := hline q
    generalize streamOf offset (cs ++ '\n' :: q) = s at hq
    cases hq with
    | complete => rfl
  | opened start => exact ⟨List.append_nil _, fun n hn => by cases hn⟩
  | broken h h' => exact ⟨rfl, fun n hn => by cases hn⟩

/-- The tokens of a text come first when a line feed and more text are added, and the others stand behind it. -/
theorem tokens_line (q : List Char) (offset : Nat) (cs : List Char) :
    ∃ post, (streamOf offset (cs ++ '\n' :: q)).tokens = (streamOf offset cs).tokens ++ post ∧
      ∀ t ∈ post, offset + byteLength cs + 1 < t.span.stop := by
  have hline := streamOf_line q offset cs
  generalize streamOf offset cs = s at hline
  generalize streamOf offset (cs ++ '\n' :: q) = s' at hline
  cases hline with
  | complete =>
    refine ⟨_, rfl, fun t ht => ?_⟩
    rw [streamOf_eq] at ht
    have hplace := afterGap_place ht
    omega
  | opened start =>
    refine ⟨_, rfl, fun t ht => ?_⟩
    have hplace := afterGap_place ht
    omega
  | broken h h' => exact ⟨[], (List.append_nil _).symm, fun t ht => absurd ht List.not_mem_nil⟩

/-- The tokens of a text stand within it. -/
theorem stop_le (ht : t ∈ (streamOf offset cs).tokens) : t.span.stop ≤ offset + byteLength cs := by
  obtain ⟨before, later, htokens⟩ := List.append_of_mem ht
  rw [← List.singleton_append, ← List.append_assoc] at htokens
  obtain ⟨pre, cs', rfl, hstop, -⟩ := streamOf_split htokens
  rw [lastStop_append] at hstop
  change t.span.stop = _ at hstop
  rw [hstop, byteLength_append]
  omega

/-- Where a text with a line feed at its end is broken, a comment is open or no more tokens come. -/
theorem tokens_broken {d : Diagnostic} (h : (streamOf offset (cs ++ ['\n'])).ending = .broken d) :
    d.incomplete = true ∨ ∀ q, (streamOf offset (cs ++ '\n' :: q)).tokens = (streamOf offset cs).tokens := by
  have hfeed := streamOf_line [] offset cs
  have hline := fun q => streamOf_line q offset cs
  generalize streamOf offset cs = s at hfeed hline
  generalize streamOf offset (cs ++ ['\n']) = s' at hfeed h
  cases hfeed with
  | complete => cases h
  | opened start =>
    obtain rfl := Ending.broken.inj h
    exact .inl rfl
  | broken hd hd' =>
    refine .inr fun q => ?_
    have hq := hline q
    generalize streamOf offset (cs ++ '\n' :: q) = s at hq
    cases hq with
    | opened start => cases hd
    | broken _ _ => rfl

/-! ## Moving a text -/

/-- The gap moved by a number of bytes. -/
def Gap.shift (n : Nat) : Gap → Gap
  | .plain => .plain
  | .line => .line
  | .block opened => .block (opened + n)

end Token

/-- The diagnostic moved by a number of bytes. -/
def Diagnostic.shift (d : Diagnostic) (n : Nat) : Diagnostic := { d with span := d.span.shift n }

namespace Token

/-- The end of a gap moved by a number of bytes. -/
def shiftGap (n : Nat) : Except Diagnostic (Nat × List Char) → Except Diagnostic (Nat × List Char)
  | .error d => .error (d.shift n)
  | .ok r => .ok (r.1 + n, r.2)

/-- The ending moved by a number of bytes. -/
def Ending.shift (n : Nat) : Ending → Ending
  | .complete length => .complete (length + n)
  | .broken d => .broken (d.shift n)

/-- The stream moved by a number of bytes. -/
def Stream.shift (s : Stream) (n : Nat) : Stream := ⟨Placed.shift s.tokens n, s.ending.shift n⟩

theorem Stream.shift_prepend (ts : List Token) (s : Stream) (n : Nat) :
    (s.prepend ts).shift n = (s.shift n).prepend (Placed.shift ts n) := by
  simp [Stream.shift, Stream.prepend]

theorem Stream.of_shift_ended {s : Stream} {n length : Nat} (h : s.shift n = ⟨[], .complete length⟩) :
    ∃ length, s = ⟨[], .complete length⟩ := by
  obtain ⟨tokens, ending⟩ := s
  obtain ⟨htokens, hending⟩ := Stream.mk.inj h
  obtain rfl := List.map_eq_nil_iff.1 htokens
  cases ending with
  | complete length => exact ⟨length, rfl⟩
  | broken d => cases hending

theorem skipGap_shift (n : Nat) (gap : Gap) (offset : Nat) (cs : List Char) :
    skipGap (gap.shift n) (offset + n) cs = shiftGap n (skipGap gap offset cs) := by
  fun_induction skipGap gap offset cs with
  | case1 opened offset => rfl
  | case2 gap offset hgap =>
    cases gap with
    | plain => rfl
    | line => rfl
    | block opened => exact absurd rfl (hgap opened)
  | case3 offset cs ih =>
    rw [← ih, Nat.add_right_comm]
    rfl
  | case4 offset cs ih =>
    rw [← ih, Nat.add_right_comm]
    rfl
  | case5 offset c cs hline hblock hblank ih =>
    rw [← ih, Nat.add_right_comm, Gap.shift, skipGap, if_pos hblank]
    · exact hline
    · exact hblock
  | case6 offset c cs hline hblock hblank =>
    rw [Gap.shift, skipGap, if_neg hblank]
    · rfl
    · exact hline
    · exact hblock
  | case7 offset c cs ih =>
    rw [← ih, Nat.add_right_comm, Gap.shift, skipGap]
    split
    · rfl
    · rfl
  | case8 opened offset cs ih =>
    rw [← ih, Nat.add_right_comm]
    rfl
  | case9 opened offset c cs hclose ih =>
    rw [← ih, Nat.add_right_comm, Gap.shift, skipGap]
    exact hclose

/-- The tokens of a text from a later offset on are the same, moved. -/
theorem streamOf_shift (n offset : Nat) (cs : List Char) :
    streamOf (offset + n) cs = (streamOf offset cs).shift n := by
  induction hlen : cs.length using Nat.strong_induction_on generalizing offset cs with
  | h k ih =>
    have hskip : skipGap .plain (offset + n) cs = shiftGap n (skipGap .plain offset cs) :=
      skipGap_shift n .plain offset cs
    rw [streamOf_eq, streamOf_eq, hskip]
    cases hgap : skipGap .plain offset cs with
    | error d => rfl
    | ok r =>
      obtain ⟨start, _ | ⟨c, rest⟩⟩ := r
      · rfl
      · cases htoken : scanToken c rest with
        | broken cause span =>
          rw [afterGap_broken htoken, shiftGap, afterGap_broken htoken]
          simp [Stream.shift, Ending.shift, Diagnostic.shift, Span.shift, Nat.add_assoc]
        | token kind taken after =>
          have hlater := ih _ (hlen ▸ length_after hgap htoken) (start + byteLength taken) after rfl
          rw [afterGap_token htoken, Stream.shift_prepend, ← hlater, shiftGap, afterGap_token htoken,
            Nat.add_right_comm]
          rfl

/-- A text of blanks has no token. -/
theorem streamOf_blank {cs : List Char} (h : ∀ c ∈ cs, Text.isBlank c = true) (offset : Nat) :
    streamOf offset cs = ⟨[], .complete (offset + byteLength cs)⟩ := by
  have hskip : skipGap .plain offset cs = .ok (offset + byteLength cs, []) := by
    induction cs generalizing offset with
    | nil => rfl
    | cons c cs ih =>
      have hc := h c List.mem_cons_self
      -- a slash is no blank, so no comment starts here
      have hslash : c ≠ '/' := by
        rintro rfl
        exact absurd hc (by decide)
      rw [skipGap, if_pos hc, ih (fun d hd => h d (List.mem_cons_of_mem c hd)), byteLength, Nat.add_assoc]
      · exact fun _ hc _ => hslash hc
      · exact fun _ hc _ => hslash hc
  rw [streamOf_eq, hskip]
  rfl

end Token

end HostScript
