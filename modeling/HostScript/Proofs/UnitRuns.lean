import HostScript.Proofs.ReadStatements
import HostScript.Proofs.TokenStreams

/-!
# Units read one after the other

From a cursor, units are read until none is left or reading fails (`Gives`). Each unit takes at least one token. It
depends on these tokens and on whether `else` comes after them (`statement_prefix`, `statement_further`), and not on
where they stand. So a cursor that has the same tokens before it, moved, and further ones after them gives the same
units, moved, up to the same place (`Gives.beside`).

A text parses to some units (`ParsesTo`) if they are all that its tokens give. It can be put together from the units
of its front and those of a later text (`ParsesTo.prepend`).
-/

set_option autoImplicit false

namespace HostScript

variable {t : Token} {source : String} {cs q : List Char} {ts : List Token}

/-! ## A unit -/

/-- A reader that does not get past a token. -/
def Read.Refuses {α : Type} (t : Token) (x : Read α) : Prop :=
  ∀ (c : Cursor) (ts : List Token), c.rest = t :: ts → ∃ s c', x c = .error s c'

namespace Read.Refuses

variable {α β : Type}

theorem fail (cause : SyntaxCause) : Refuses t (Read.fail cause : Read α) :=
  fun _ _ h => ⟨_, _, Read.peek_bind_cons h _⟩

theorem peek {f : Token → Read α} (h : Refuses t (f t)) : Refuses t (Read.peek >>= f) := by
  intro c ts hc
  obtain ⟨s, c', hr⟩ := h c ts hc
  exact ⟨s, c', by rw [Read.peek_bind_cons hc, hr]⟩

theorem bind {x : Read α} (h : Refuses t x) (f : α → Read β) : Refuses t (x >>= f) := by
  intro c ts hc
  obtain ⟨s, c', hr⟩ := h c ts hc
  refine ⟨s, c', ?_⟩
  show EStateM.bind x f c = _
  simp only [EStateM.bind, hr]

end Read.Refuses

namespace Read

variable (ht : t.kind = .keyword .elseWord)

include ht

theorem refuses_unary (budget : Nat) (again : Goal → Read Expr) : Refuses t (unary budget again) := by
  have hprimary : Refuses t (primary budget again) := .peek (by rw [ht]; exact .fail _)
  exact .peek (by rw [ht]; exact hprimary.bind _)

theorem refuses_binary (budget : Nat) (again : Goal → Read Expr) (count : Nat) :
    Refuses t (binary budget again count) := by
  induction count with
  | zero => exact refuses_unary ht budget again
  | succ count ih => exact ih.bind _

theorem refuses_expression (budget : Nat) : Refuses t (expression budget) := by
  cases budget with
  | zero => exact .fail _
  | succ budget => exact ((refuses_binary ht _ _ _).bind _).bind _

/-- No statement starts with `else`. -/
theorem refuses_statement (budget : Nat) : Refuses t (statement budget) := by
  cases budget with
  | zero => exact .fail _
  | succ budget =>
    rw [statement, statementWith_eq]
    refine .peek ?_
    rw [ht]
    exact (refuses_expression ht _).bind _

end Read

variable {c c' c'' d d' : Cursor} {u : Stmt} {us : List Stmt} {b n : Nat} {post taken : List Token}

/-- A unit is a statement, read with a budget that pays for all tokens. -/
theorem nextUnit_some : nextUnit c = (.ok (some u), c') ↔
    c.rest ≠ [] ∧ Read.statement (c.rest.length + 1) c = .ok u c' := by
  unfold nextUnit
  cases hrest : c.rest with
  | nil => cases c.ending <;> simp
  | cons t ts =>
    cases Read.statement (List.length (t :: ts) + 1) c with
    | ok u' c'' => simp
    | error s c'' => simp

/-- Reading ends without a failure at the end of the text only. -/
theorem nextUnit_none : (nextUnit c).1 = .ok none ↔ c.rest = [] ∧ ∃ n, c.ending = .complete n := by
  unfold nextUnit
  cases hrest : c.rest with
  | nil => cases c.ending <;> simp
  | cons t ts =>
    cases Read.statement (List.length (t :: ts) + 1) c with
    | ok u' c'' => simp
    | error s c'' => simp

theorem nextUnit_else (h : c.rest = t :: ts) (ht : t.kind = .keyword .elseWord) :
    ∃ d c', nextUnit c = (.error d, c') := by
  obtain ⟨s, c', hr⟩ := Read.refuses_statement ht (c.rest.length + 1) c ts h
  unfold nextUnit
  rw [hr, h]
  exact ⟨_, _, rfl⟩

/-- The tokens of a statement, with some of those that came after it, are all that it was read from. -/
theorem statement_prefix {s : List Token} (h : Read.statement b d = .ok u d') (hd : d.Onward taken d')
    (hrest : d'.rest = s ++ post) (hc : c.rest = taken ++ s) :
    ∃ c', Read.statement b c = .ok u c' ∧ c.Onward taken c' := by
  have hcd : d.rest = c.rest ++ post := by rw [hd.rest, hrest, hc, List.append_assoc]
  have hsame : ∀ {ts}, d.Onward ts d' → ts = taken :=
    fun hts => List.append_cancel_right (hts.rest.symm.trans hd.rest)
  have hlen : taken.length ≤ c.rest.length := by
    rw [hc, List.length_append]
    exact Nat.le_add_right _ _
  have hboth := Read.closes_statement (b := b).both post c d hcd List.nil_prefix
  rw [h] at hboth
  generalize hr : Read.statement b c = r at hboth
  cases hboth with
  | together ts hc' hd' _ _ =>
    obtain rfl := hsame hd'
    exact ⟨_, rfl, hc'⟩
  | edge hc' _ _ hother helse =>
    by_cases hpost : ElseNext post
    · obtain ⟨ts, hts, -, hlt⟩ := helse hpost u d' rfl
      obtain rfl := hsame hts
      exact absurd (hlt trivial) (Nat.not_lt.2 hlen)
    · obtain ⟨d'', heq, hd''⟩ := hother hpost
      cases heq
      exact ⟨_, rfl, hsame hd'' ▸ hc'⟩
  | lost tail _ _ _ hlong =>
    obtain ⟨ts, hts, -, hlt⟩ := hlong u d' rfl
    obtain rfl := hsame hts
    exact absurd (hlt trivial) (Nat.not_lt.2 hlen)

/-- A statement stays the same when further tokens come after those that it was read from, unless it took all of them
and the further ones start with `else`. -/
theorem statement_further (h : Read.statement b c = .ok u c') (hcd : d.rest = c.rest ++ post)
    (helse : c'.rest = [] → ¬ ElseNext post) :
    ∃ taken d', Read.statement b d = .ok u d' ∧ c.Onward taken c' ∧ d.Onward taken d' := by
  have hboth := Read.closes_statement (b := b).both post c d hcd List.nil_prefix
  rw [h] at hboth
  generalize hr : Read.statement b d = r at hboth
  cases hboth with
  | together ts hc' hd' _ _ => exact ⟨ts, _, rfl, hc', hd'⟩
  | edge hc' _ _ hother _ =>
    obtain ⟨d', rfl, hd'⟩ := hother (helse (List.self_eq_append_right.1 hc'.rest))
    exact ⟨_, d', rfl, hc', hd'⟩
  | lost _ _ _ hlost _ =>
    cases hlost with
    | ok _ _ _ _ hopen => exact absurd trivial hopen

/-- A statement stays the same, moved, when its tokens are moved and the budget changes. -/
theorem statement_moved {b' : Nat} (h : Read.statement b c = .ok u c') (hb : c.rest.length < b)
    (hb' : c.rest.length < b') (hd : d.rest = Placed.shift c.rest n) :
    ∃ d', Read.statement b' d = .ok (u.shift n) d' ∧ d'.rest = Placed.shift c'.rest n := by
  -- a cursor that ends where the tokens were moved to; how the tokens end makes no difference
  have hmoved : Moved n c { d with ending := .complete (c.ending.token.span.start + n), met := c.met } :=
    ⟨hd, by cases c.ending <;> rfl, rfl⟩
  have hrun := (Read.paired_statement (n := n) hb hb').run c _ hmoved (Nat.lt_succ_self _) List.nil_prefix
  rw [h] at hrun
  generalize hr : Read.statement b' _ = r at hrun
  cases hrun with
  | ok hrest =>
    obtain ⟨taken, d', hd', honward, honward'⟩ := statement_further hr (List.append_nil d.rest).symm
      (fun _ => by rintro ⟨t, ts, hts, -⟩; cases hts)
    have hleft := List.append_cancel_left (honward'.rest.symm.trans honward.rest)
    exact ⟨d', hd', hleft.trans hrest.rest⟩

/-- A unit takes the tokens that spell it. -/
theorem unit_spelled (h : nextUnit c = (.ok (some u), c')) :
    ∃ taken, c.Onward taken c' ∧ SpelledStmt u taken c'.rest := by
  obtain ⟨-, h⟩ := nextUnit_some.1 h
  have hsure := Read.takes_statement (b := c.rest.length + 1).run c List.nil_prefix
  rw [h] at hsure
  cases hsure with
  | ok taken htaken hspelled => exact ⟨taken, htaken, hspelled⟩

/-- A unit takes tokens from the front, at least one. -/
theorem unit_onward (h : nextUnit c = (.ok (some u), c')) : ∃ taken, c.Onward taken c' ∧ taken ≠ [] := by
  obtain ⟨taken, htaken, hspelled⟩ := unit_spelled h
  exact ⟨taken, htaken, hspelled.ends.ne⟩

/-- A unit stays the same when it is moved and further tokens come after those that it was read from, unless it took
all of them and the further ones start with `else`. -/
theorem unit_beside (h : nextUnit c = (.ok (some u), c')) (hcd : d.rest = Placed.shift c.rest n ++ post)
    (helse : c'.rest = [] → ¬ ElseNext post) :
    ∃ d', nextUnit d = (.ok (some (u.shift n)), d') ∧ d'.rest = Placed.shift c'.rest n ++ post ∧
      d'.ending = d.ending := by
  obtain ⟨hne, h⟩ := nextUnit_some.1 h
  have hlen : c.rest.length < d.rest.length + 1 := by
    rw [hcd, List.length_append, length_shift]
    omega
  obtain ⟨e, hrun, hrest⟩ := statement_moved (d := { d with rest := Placed.shift c.rest n }) h (Nat.lt_succ_self _)
    hlen rfl
  obtain ⟨taken, d', hrun', hon, hon'⟩ := statement_further hrun hcd fun hnil =>
    helse (by simpa [shift_list] using hrest.symm.trans hnil)
  refine ⟨d', nextUnit_some.2 ⟨?_, hrun'⟩, ?_, hon'.ending⟩
  · rw [hcd]
    exact List.append_ne_nil_of_left_ne_nil (by simpa [shift_list] using hne) _
  · rw [rest_onward hcd hon hon', hrest]

/-! ## All units -/

/-- Units are read one after the other, from one place to another. -/
inductive Cursor.Gives : Cursor → List Stmt → Cursor → Prop
  | done (c : Cursor) : Cursor.Gives c [] c
  | unit {c c' c'' : Cursor} {u : Stmt} {us : List Stmt} (h : nextUnit c = (.ok (some u), c'))
      (hlater : Cursor.Gives c' us c'') : Cursor.Gives c (u :: us) c''

open Cursor (Gives)

namespace Cursor.Gives

theorem append {us' : List Stmt} (h : Gives c us c') (h' : Gives c' us' c'') : Gives c (us ++ us') c'' := by
  induction h with
  | done => exact h'
  | unit hu _ ih => exact .unit hu (ih h')

theorem onward (h : Gives c us c') : ∃ taken, c.Onward taken c' := by
  induction h with
  | done c => exact ⟨[], .refl c⟩
  | unit hu _ ih =>
    obtain ⟨taken, htaken, -⟩ := unit_onward hu
    obtain ⟨taken', htaken'⟩ := ih
    exact ⟨_, htaken.trans htaken'⟩

theorem ending (h : Gives c us c') : c'.ending = c.ending := by
  obtain ⟨taken, htaken⟩ := h.onward
  exact htaken.ending

/-- The units stay the same when further tokens come after those that they were read from. -/
theorem beside (h : Gives c us c') (hcd : d.rest = Placed.shift c.rest n ++ post)
    (helse : c'.rest = [] → ¬ ElseNext post) :
    ∃ d', Gives d (Placed.shift us n) d' ∧ d'.rest = Placed.shift c'.rest n ++ post ∧ d'.ending = d.ending := by
  induction h generalizing d with
  | done c => exact ⟨d, .done d, hcd, rfl⟩
  | @unit c c1 c' u us hu hlater ih =>
    -- a unit that took all tokens is the last one
    have hlast : c1.rest = [] → ¬ ElseNext post := by
      intro hnil
      obtain ⟨taken, htaken⟩ := hlater.onward
      have hrest : c'.rest = [] := List.suffix_nil.1 (hnil ▸ htaken.suffix)
      exact helse hrest
    obtain ⟨d1, hd, hcd1, hend⟩ := unit_beside hu hcd hlast
    obtain ⟨d', hd', hcd', hend'⟩ := ih hcd1 helse
    exact ⟨d', .unit hd hd', hcd', hend'.trans hend⟩

/-- Units read from the moved tokens, with nothing after them. -/
theorem moved (h : Gives c us c') (hrest : d.rest = Placed.shift c.rest n) :
    ∃ d', Gives d (Placed.shift us n) d' ∧ d'.rest = Placed.shift c'.rest n ∧ d'.ending = d.ending := by
  have hcd : d.rest = Placed.shift c.rest n ++ [] := by rw [hrest, List.append_nil]
  obtain ⟨d', hd, hcd', hend⟩ := h.beside hcd (by rintro - ⟨t, ts, hpost, -⟩; cases hpost)
  exact ⟨d', hd, by rw [hcd', List.append_nil], hend⟩

end Cursor.Gives

/-- What `unitsFrom` finds is given from its cursor on, and then comes the end or the failure. -/
theorem unitsFrom_gives (hb : c.rest.length < b) :
    ∃ c', Gives c ((unitsFrom b c).1.map Prod.fst) c' ∧
      (((unitsFrom b c).1.getLast?.map Prod.snd).getD c.consumed = c'.consumed) ∧
      (nextUnit c').1 = (unitsFrom b c).2.elim (.ok none) .error := by
  induction b generalizing c with
  | zero => exact absurd hb (Nat.not_lt_zero _)
  | succ b ih =>
    rw [unitsFrom]
    generalize hr : nextUnit c = r
    obtain ⟨_ | ⟨_ | u⟩, c1⟩ := r
    · exact ⟨c, .done c, rfl, by rw [hr]; rfl⟩
    · exact ⟨c, .done c, rfl, by rw [hr]; rfl⟩
    · obtain ⟨taken, htaken, hne⟩ := unit_onward hr
      have hlen : c1.rest.length < b := by
        have hpos := List.length_pos_of_ne_nil hne
        have hlen := congrArg List.length htaken.rest
        rw [List.length_append] at hlen
        omega
      obtain ⟨c', hlater, hstop, hend⟩ := ih hlen
      refine ⟨c', .unit hr hlater, ?_, hend⟩
      rw [← hstop, List.getLast?_cons]
      cases (unitsFrom b c1).1.getLast? <;> rfl

/-- Where units are given up to the end of the text, `unitsFrom` finds them. -/
theorem unitsFrom_of_gives (h : Gives c us c') (hend : (nextUnit c').1 = .ok none)
    (hb : c.rest.length < b) :
    ((unitsFrom b c).1.map Prod.fst) = us ∧ (unitsFrom b c).2 = none := by
  induction h generalizing b with
  | done c =>
    obtain ⟨b, rfl⟩ := Nat.exists_eq_succ_of_ne_zero (Nat.ne_zero_of_lt hb)
    rw [unitsFrom]
    generalize hr : nextUnit c = r at hend
    obtain ⟨r, c'⟩ := r
    obtain rfl : r = .ok none := hend
    exact ⟨rfl, rfl⟩
  | unit hu hlater ih =>
    obtain ⟨b, rfl⟩ := Nat.exists_eq_succ_of_ne_zero (Nat.ne_zero_of_lt hb)
    obtain ⟨taken, htaken, hne⟩ := unit_onward hu
    have hpos := List.length_pos_of_ne_nil hne
    have hlen := congrArg List.length htaken.rest
    rw [List.length_append] at hlen
    obtain ⟨hunits, hfailure⟩ := ih hend (b := b) (by omega)
    rw [unitsFrom, hu]
    exact ⟨by simp [hunits], hfailure⟩

/-! ## Texts -/

/-- The start of a text, given by its characters. -/
def Cursor.ofChars (cs : List Char) : Cursor :=
  { rest := (Token.streamOf 0 cs).tokens, ending := (Token.streamOf 0 cs).ending }

theorem ofSource_eq (source : String) : Cursor.ofSource source = Cursor.ofChars source.toList := rfl

/-- Characters that can be read to their end, and the units that they consist of. -/
def ParsesTo (cs : List Char) (us : List Stmt) : Prop :=
  ∃ c, Gives (Cursor.ofChars cs) us c ∧ c.rest = [] ∧ ∃ n, c.ending = .complete n

theorem ParsesTo.readUnits (h : ParsesTo source.toList us) :
    (readUnits source).1.map Prod.fst = us ∧ (readUnits source).2 = none := by
  obtain ⟨c, hgives, hend⟩ := h
  exact unitsFrom_of_gives hgives (nextUnit_none.2 hend) (Nat.lt_succ_self _)

theorem parsesTo_iff : ParsesTo source.toList us ↔ parseUnits source = .ok us := by
  constructor
  · intro h
    obtain ⟨hunits, hfailure⟩ := h.readUnits
    unfold parseUnits
    generalize HostScript.readUnits source = r at hunits hfailure
    obtain ⟨units, failure⟩ := r
    obtain rfl : failure = none := hfailure
    exact congrArg Except.ok hunits
  · intro h
    obtain ⟨c, hgives, -, hend⟩ := unitsFrom_gives (Nat.lt_succ_self (Cursor.ofSource source).rest.length)
    unfold parseUnits readUnits at h
    generalize unitsFrom _ (Cursor.ofSource source) = r at hgives hend h
    obtain ⟨units, _ | d⟩ := r
    · obtain rfl := Except.ok.inj h
      exact ⟨c, hgives, nextUnit_none.1 hend⟩
    · cases h

/-- A text that can be read does not start with `else`. -/
theorem ParsesTo.not_else (h : ParsesTo cs us) (hts : (Token.streamOf 0 cs).tokens = t :: ts) :
    t.kind.isKeyword .elseWord = false := by
  obtain ⟨c, hgives, hrest, -⟩ := h
  by_contra helse
  have ht : t.kind = .keyword .elseWord := by
    cases hkind : t.kind with
    | keyword k =>
      rw [hkind] at helse
      exact congrArg _ (of_decide_eq_true (Bool.not_eq_false _ ▸ helse))
    | _ =>
      rw [hkind] at helse
      exact absurd rfl helse
  obtain ⟨d, c', hfail⟩ := nextUnit_else (c := Cursor.ofChars cs) hts ht
  cases hgives with
  | done => rw [show (Cursor.ofChars cs).rest = _ from hts] at hrest; cases hrest
  | unit hu _ => rw [hfail] at hu; cases hu

theorem ParsesTo.moved {cs' : List Char} (h : ParsesTo cs us)
    (hs : Token.streamOf 0 cs' = (Token.streamOf 0 cs).shift n) :
    ParsesTo cs' (Placed.shift us n) := by
  obtain ⟨c, hgives, hrest, length, hend⟩ := h
  have htokens : (Cursor.ofChars cs').rest = Placed.shift (Cursor.ofChars cs).rest n :=
    congrArg Token.Stream.tokens hs
  have hending : (Cursor.ofChars cs').ending = (Cursor.ofChars cs).ending.shift n :=
    congrArg Token.Stream.ending hs
  obtain ⟨d, hd, hrest', hend'⟩ := hgives.moved htokens
  refine ⟨d, hd, by rw [hrest', hrest]; rfl, length + n, ?_⟩
  rw [hend', hending, ← hgives.ending, hend]
  rfl

/-- A line feed at the end of a text makes no difference. -/
theorem ParsesTo.of_feed (h : ParsesTo (cs ++ ['\n']) us) : ParsesTo cs us := by
  obtain ⟨c, hgives, hrest, length, hend⟩ := h
  obtain ⟨htokens, hcomplete⟩ := Token.streamOf_feed 0 cs
  obtain ⟨⟨length', hend'⟩, -⟩ := hcomplete length (hgives.ending.symm.trans hend)
  have hmoved : (Cursor.ofChars cs).rest = Placed.shift (Cursor.ofChars (cs ++ ['\n'])).rest 0 := by
    rw [LawfulPlaced.shift_zero]
    exact htokens.symm
  obtain ⟨d, hd, hrest', hending⟩ := hgives.moved hmoved
  rw [LawfulPlaced.shift_zero] at hd hrest'
  exact ⟨d, hd, hrest'.trans hrest, length', hending.trans hend'⟩

/-- Where a line of blanks and comments ends the text, what comes after it is read on its own. -/
theorem ParsesTo.after_feed (h : ParsesTo q us)
    (hs : Token.streamOf 0 (cs ++ ['\n']) = ⟨[], .complete n⟩) :
    ParsesTo (cs ++ '\n' :: q) (Placed.shift us (byteLength cs + 1)) := by
  obtain ⟨htokens, hcomplete⟩ := Token.streamOf_feed 0 cs
  rw [hs] at htokens hcomplete
  obtain ⟨-, hq⟩ := hcomplete n rfl
  refine h.moved ?_
  rw [hq q, ← htokens, ← Token.streamOf_shift, Nat.add_assoc]
  rfl

/-- The tokens of a line stand before those of a longer text. -/
theorem rest_line
    (h : (Token.streamOf 0 (cs ++ '\n' :: q)).tokens = (Token.streamOf 0 cs).tokens ++ post) :
    (Cursor.ofChars (cs ++ '\n' :: q)).rest = (Cursor.ofChars (cs ++ ['\n'])).rest ++ post := by
  show (Token.streamOf 0 (cs ++ '\n' :: q)).tokens = (Token.streamOf 0 (cs ++ ['\n'])).tokens ++ post
  rw [h, (Token.streamOf_feed 0 cs).1]

/-- The units that the front of a text gives up to some place, and the text from that place on. Units of the later
text come after them, however the text goes on after its line feed. -/
theorem Cursor.Gives.split (h : Gives (Cursor.ofChars (cs ++ ['\n'])) us c) :
    ∃ pre cs', cs = pre ++ cs' ∧ c.consumed = byteLength pre ∧
      (Token.streamOf 0 (cs' ++ ['\n'])).shift (byteLength pre) = ⟨c.rest, c.ending⟩ ∧
      ∀ q us', ParsesTo (cs' ++ '\n' :: q) us' →
        ParsesTo (cs ++ '\n' :: q) (us ++ Placed.shift us' (byteLength pre)) := by
  obtain ⟨taken, htaken⟩ := h.onward
  have htokens : (Token.streamOf 0 cs).tokens = taken ++ c.rest := by
    rw [← (Token.streamOf_feed 0 cs).1]
    exact htaken.rest
  obtain ⟨pre, cs', hcs, hstop, -, hline⟩ := Token.streamOf_split htokens
  have hmoved : ∀ q, Token.streamOf 0 (cs ++ '\n' :: q) =
      ((Token.streamOf 0 (cs' ++ '\n' :: q)).shift (byteLength pre)).prepend taken := by
    intro q
    rw [hline q, hstop, Token.streamOf_shift]
  refine ⟨pre, cs', hcs, htaken.consumed.trans (hstop.trans (Nat.zero_add _)), ?_, fun q us' hq => ?_⟩
  · have hend : c.ending = (Token.streamOf 0 (cs ++ ['\n'])).ending := h.ending
    have hrest : taken ++ c.rest = (Token.streamOf 0 (cs ++ ['\n'])).tokens := htaken.rest.symm
    rw [hmoved []] at hend hrest
    rw [hend, List.append_cancel_left hrest]
    rfl
  -- the longer text has the tokens of the shorter one and more, and from the place on those of the rest
  obtain ⟨post, hpost, -⟩ := Token.tokens_line q 0 cs
  have hrest : c.rest ++ post = Placed.shift (Token.streamOf 0 (cs' ++ '\n' :: q)).tokens (byteLength pre) := by
    have heq := congrArg Token.Stream.tokens (hmoved q)
    rw [hpost, htokens, List.append_assoc] at heq
    exact List.append_cancel_left heq
  have helse : c.rest = [] → ¬ ElseNext post := by
    rintro hnil ⟨t, ts, rfl, ht⟩
    rw [hnil, List.nil_append] at hrest
    cases htail : (Token.streamOf 0 (cs' ++ '\n' :: q)).tokens with
    | nil => rw [htail] at hrest; cases hrest
    | cons t' ts' =>
      rw [htail] at hrest
      obtain ⟨rfl, -⟩ := List.cons.inj hrest
      have hnot := hq.not_else htail
      rw [show (Placed.shift t' (byteLength pre)).kind = t'.kind from rfl, hnot] at ht
      cases ht
  obtain ⟨d, hd, hcd, hend⟩ := h.beside (n := 0) ((rest_line hpost).trans (by rw [LawfulPlaced.shift_zero])) helse
  rw [LawfulPlaced.shift_zero] at hd
  obtain ⟨c', hgives, hnil, length, hcomplete⟩ := hq
  have hdrest : d.rest = Placed.shift (Cursor.ofChars (cs' ++ '\n' :: q)).rest (byteLength pre) := by
    rw [hcd, LawfulPlaced.shift_zero]
    exact hrest
  obtain ⟨d', hd', hrest', hend'⟩ := hgives.moved hdrest
  refine ⟨d', hd.append hd', by rw [hrest', hnil]; rfl, length + byteLength pre, ?_⟩
  have hending : (Cursor.ofChars (cs ++ '\n' :: q)).ending =
      (Cursor.ofChars (cs' ++ '\n' :: q)).ending.shift (byteLength pre) :=
    congrArg Token.Stream.ending (hmoved q)
  rw [hend', hend, hending, ← hgives.ending, hcomplete]
  rfl

end HostScript
