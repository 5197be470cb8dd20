import HostScript.Proofs.UnitRuns

/-!
# Units that go on behind the end of a text

A unit of a text may end behind a line of it. Read up to that line only, the unit is unfinished, and a loop that reads
lines should wait for more. It does so if the reader got stuck at the end of the tokens, or at an open comment. But a
head of a declaration or a cast is read ahead and given up where the tokens end; then the reader starts over from its
front, and may get stuck there. So an unfinished unit is flagged as such, or the reader is stuck at a token of an
unfinished head that the line ends with (`unfinished_unit_flagged`).
-/

set_option autoImplicit false

namespace HostScript

variable {s : Stuck} {c : Cursor}

/-- A diagnostic that blames a token. -/
structure Diagnostic.Blames (diagnostic : Diagnostic) (t : Token) : Prop where
  span : diagnostic.span = t.span
  found : ∃ cause, diagnostic.cause = .syntactic cause (some t.lexeme)

/-- A reader that is stuck at the end of the tokens is in want of more text. -/
theorem blame_complete {tail : List Token} {n : Nat} (hend : c.ending = .complete n)
    (htoken : s.token ∈ tail ∨ s.token.kind = .eof) :
    (c.blame s).incomplete = true ∨ ∃ t ∈ tail, (c.blame s).Blames t := by
  unfold Cursor.blame
  rw [hend]
  cases heof : s.token.kind.isEof with
  | true => exact .inl rfl
  | false =>
    rcases htoken with htail | hkind
    · exact .inr ⟨s.token, htail, rfl, s.cause, rfl⟩
    · rw [hkind] at heof
      cases heof

theorem blame_broken {d : Diagnostic} (hend : c.ending = .broken d) (hmet : c.met = true)
    (s : Stuck) : c.blame s = d := by
  unfold Cursor.blame
  rw [hend, hmet]

theorem nextUnit_stuck {c' : Cursor} (hne : c.rest ≠ [])
    (h : Read.statement (c.rest.length + 1) c = .error s c') :
    (nextUnit c).1 = .error (c'.blame s) ∧ (nextUnit c).2 = if c'.met then c'.settle else c' := by
  unfold nextUnit
  cases hrest : c.rest with
  | nil => exact absurd hrest hne
  | cons t ts =>
    rw [hrest] at h
    rw [h]
    exact ⟨rfl, rfl⟩

/-- A reader is lost in an unfinished head at the end of its tokens. -/
structure LostAt (c : Cursor) (s : Stuck) (c' : Cursor) (tail : List Token) : Prop where
  stuck : Read.statement (c.rest.length + 1) c = .error s c'
  met : c'.met = true
  ending : c'.ending = c.ending
  suffix : tail <:+ c.rest
  head : Unfinished tail
  token : s.token ∈ tail ∨ s.token.kind = .eof

/-- A unit that takes all of some tokens and more of those that come after them, but no `else`, cannot be read from
the first ones. -/
theorem lost_of_longer {d d' : Cursor} {u : Stmt} {post taken : List Token}
    (hcd : d.rest = c.rest ++ post) (h : nextUnit d = (.ok (some u), d'))
    (htaken : d.rest = taken ++ d'.rest) (hlong : c.rest.length < taken.length)
    (helse : ∀ t ∈ taken, t.kind.isKeyword .elseWord = false) :
    ∃ s c' tail, LostAt c s c' tail := by
  obtain ⟨-, h⟩ := nextUnit_some.1 h
  have hsame : ∀ {ts}, d.Onward ts d' → ts = taken :=
    fun hts => List.append_cancel_right (hts.rest.symm.trans htaken)
  have hboth := Read.closes_statement (b := d.rest.length + 1).both post c d hcd List.nil_prefix
  have hle : c.rest.length ≤ d.rest.length := by
    rw [hcd, List.length_append]
    exact Nat.le_add_right _ _
  -- the budget of the longer text pays for the shorter one as well
  have hrun := (Read.paired_statement (n := 0) (Nat.le_refl (c.rest.length + 1)) (Nat.add_le_add_right hle 1)).run c c
    ⟨(LawfulPlaced.shift_zero _).symm, rfl, rfl⟩ (Nat.lt_succ_self _) List.nil_prefix
  rw [h] at hboth
  generalize hr : Read.statement (c.rest.length + 1) c = r at hrun
  generalize hr' : Read.statement (d.rest.length + 1) c = r' at hboth hrun
  cases hboth with
  | together ts hc' hd' _ _ =>
    rw [← hsame hd'] at hlong
    exact absurd (hc'.rest ▸ hlong) (by simp)
  | edge hc' _ _ hother _ =>
    by_cases hpost : ElseNext post
    · -- the unit goes on behind the first tokens, with the `else` that comes next
      obtain ⟨t, ts, rfl, ht⟩ := hpost
      have hfront : c.rest ++ [t] <+: taken := by
        refine List.prefix_of_prefix_length_le ⟨ts, ?_⟩ ⟨d'.rest, htaken.symm⟩ ?_
        · rw [hcd, List.append_assoc]
          rfl
        · rw [List.length_append]
          exact hlong
      rw [helse t (hfront.subset (List.mem_append_right _ List.mem_cons_self))] at ht
      cases ht
    · obtain ⟨d'', heq, hd''⟩ := hother hpost
      cases heq
      rw [← hsame hd''] at hlong
      exact absurd hlong (Nat.lt_irrefl _)
  | lost tail htail hhead hlost _ =>
    cases hlost with
    | ok _ _ _ _ hopen => exact absurd trivial hopen
    | error _ hmet htoken =>
      cases hrun with
      | error hmet' =>
        have hsure := Read.takes_statement (b := c.rest.length + 1).run c List.nil_prefix
        rw [hr] at hsure
        cases hsure with
        | error hstopped => exact ⟨_, _, tail, hr, hmet'.symm.trans hmet, hstopped.ending, htail, hhead, htoken⟩

section

variable {cs q : List Char} {u : Stmt} {d : Cursor} {taken : List Token}

/-- The tokens of the first lines are the first ones of a unit that goes on behind them. -/
theorem longer_of_beyond {post : List Token}
    (hpost : (Token.streamOf 0 (cs ++ '\n' :: q)).tokens = (Token.streamOf 0 cs).tokens ++ post)
    (htaken : (Token.streamOf 0 (cs ++ '\n' :: q)).tokens = taken ++ d.rest)
    (hbeyond : ∃ t ∈ taken, byteLength cs + 1 < t.span.stop) :
    (Token.streamOf 0 cs).tokens.length < taken.length := by
  obtain ⟨t, ht, hstop⟩ := hbeyond
  by_contra hshort
  have hfront : taken <+: (Token.streamOf 0 cs).tokens :=
    List.prefix_of_prefix_length_le ⟨d.rest, htaken.symm⟩ ⟨post, hpost.symm⟩ (Nat.le_of_not_lt hshort)
  have hwithin := Token.stop_le (hfront.subset ht)
  omega

theorem flagged_of_beyond (h : nextUnit (Cursor.ofChars (cs ++ '\n' :: q)) = (.ok (some u), d))
    (htaken : (Token.streamOf 0 (cs ++ '\n' :: q)).tokens = taken ++ d.rest)
    (helse : ∀ t ∈ taken, t.kind.isKeyword .elseWord = false)
    (hinside : ∃ t ∈ taken, t.span.stop ≤ byteLength cs + 1) (hbeyond : ∃ t ∈ taken, byteLength cs + 1 < t.span.stop) :
    ∃ diagnostic, (nextUnit (Cursor.ofChars (cs ++ ['\n']))).1 = .error diagnostic ∧
      (diagnostic.incomplete = true ∨ ∃ tail, tail <:+ (Token.streamOf 0 (cs ++ ['\n'])).tokens ∧ Unfinished tail ∧
        ∃ t ∈ tail, diagnostic.Blames t) := by
  obtain ⟨post, hpost, hplace⟩ := Token.tokens_line q 0 cs
  have hfeed := (Token.streamOf_feed 0 cs).1
  have hlong := longer_of_beyond hpost htaken hbeyond
  rw [← hfeed] at hlong
  obtain ⟨s, c, tail, hlost⟩ := lost_of_longer (rest_line hpost) h htaken hlong helse
  have hne : (Cursor.ofChars (cs ++ ['\n'])).rest ≠ [] := by
    intro hnil
    obtain ⟨t, ht, hstop⟩ := hinside
    rw [hpost, ← hfeed, show (Token.streamOf 0 (cs ++ ['\n'])).tokens = [] from hnil, List.nil_append] at htaken
    have hbehind := hplace t (htaken ▸ List.mem_append_left _ ht)
    omega
  refine ⟨c.blame s, (nextUnit_stuck hne hlost.stuck).1, ?_⟩
  cases hend : c.ending with
  | complete n =>
    refine (blame_complete hend hlost.token).imp_right fun hblames => ?_
    exact ⟨tail, hlost.suffix, hlost.head, hblames⟩
  | broken diagnostic =>
    rw [blame_broken hend hlost.met]
    rcases Token.tokens_broken (hlost.ending.symm.trans hend) with hopen | hsame
    · exact .inl hopen
    · -- no token comes after a broken one, so the unit cannot go on
      obtain ⟨t, ht, hstop⟩ := hbeyond
      have hmem : t ∈ (Token.streamOf 0 cs).tokens := by
        rw [← hsame q, htaken]
        exact List.mem_append_left _ ht
      have hwithin := Token.stop_le hmem
      omega

end

/-- The kinds of the primitive types other than `void`, which is also a value. -/
def Token.Kind.isValueType (k : Token.Kind) : Bool := k.isTypeWord && k.literal?.isNone

section

variable {t : Token} (ht : t.kind.isValueType = true) (n : Nat)

include ht

theorem exists_keyword : ∃ k : Keyword, t = ⟨.keyword k, t.lexeme, t.span⟩ ∧ k.isType = true ∧ k ≠ .void := by
  obtain ⟨kind, lexeme, span⟩ := t
  cases kind with
  | keyword k => exact ⟨k, rfl, (Bool.and_eq_true_iff.1 ht).1, by rintro rfl; cases ht⟩
  | _ => cases ht

theorem declaration?_type (again : Read Stmt) :
    Read.declaration? 2 again { rest := [t], ending := .complete n } =
      .ok none { rest := [t], ending := .complete n, met := true } := by
  obtain ⟨k, heq, hk, -⟩ := exists_keyword ht
  rw [heq]
  cases k with
  | boolean | char | byte | short | int | long | float | double | void => rfl
  | _ => cases hk

theorem expressionStatement_type :
    Read.expressionStatement 2 { rest := [t], ending := .complete n, met := true } =
      .error ⟨.expression, t⟩ { rest := [t], ending := .complete n, met := true } := by
  obtain ⟨k, heq, hk, hvoid⟩ := exists_keyword ht
  rw [heq]
  cases k with
  | boolean | char | byte | short | int | long | float | double => rfl
  | void => exact absurd rfl hvoid
  | _ => cases hk

/-- A primitive type alone before the end of the tokens is given up as a declaration and is no expression. -/
theorem statement_type : Read.statement 2 { rest := [t], ending := .complete n } =
    .error ⟨.expression, t⟩ { rest := [t], ending := .complete n, met := true } := by
  have hplain : ∀ budget again, Read.announced budget again t.kind =
      (Read.declaration? budget again >>= fun declared? =>
        declared?.elim (Read.expressionStatement budget) pure) := by
    intro budget again
    obtain ⟨k, heq, hk, -⟩ := exists_keyword ht
    rw [heq, Read.declaration?_bind]
    cases k with
    | boolean | char | byte | short | int | long | float | double | void => rfl
    | _ => cases hk
  rw [Read.statement, Read.statementWith_eq, Read.peek_bind_cons rfl, hplain]
  show EStateM.bind (Read.declaration? 2 _) _ _ = _
  unfold EStateM.bind
  rw [declaration?_type ht n]
  exact expressionStatement_type ht n

end

/-- A unit without `else` that begins in the first lines of a text and ends behind them is flagged as unfinished when
only these lines are read, or the reader blames a token of an unfinished head that the lines end with. The second case
cannot be left out: lines that consist of a primitive type are always refused. -/
theorem unfinished_unit_flagged (p : String) :
    (∀ (q : String) (cs : List Char) (u : Stmt) (d : Cursor) (taken : List Token), p.toList = cs ++ ['\n'] →
      nextUnit (Cursor.ofSource (p ++ q)) = (.ok (some u), d) → (scan (p ++ q)).tokens = taken ++ d.rest →
      (∀ t ∈ taken, t.kind.isKeyword .elseWord = false) → (∃ t ∈ taken, t.span.stop ≤ byteLength p.toList) →
      (∃ t ∈ taken, byteLength p.toList < t.span.stop) →
      ∃ diagnostic, (nextUnit (Cursor.ofSource p)).1 = .error diagnostic ∧ (diagnostic.incomplete = true ∨
          ∃ tail, tail <:+ (scan p).tokens ∧ Unfinished tail ∧ ∃ t ∈ tail, diagnostic.Blames t)) ∧
    ∀ (t : Token) (n : Nat), scan p = ⟨[t], .complete n⟩ → t.kind.isValueType = true →
      ∃ diagnostic, (nextUnit (Cursor.ofSource p)).1 = .error diagnostic ∧ diagnostic.incomplete = false ∧
        diagnostic.Blames t := by
  constructor
  · intro q cs u d taken hp h htaken helse hinside hbeyond
    have hpq : (p ++ q).toList = cs ++ '\n' :: q.toList := by
      rw [String.toList_append, hp, List.append_assoc]
      rfl
    rw [hp, byteLength_line] at hinside hbeyond
    rw [ofSource_eq, hpq] at h
    have htokens : (Token.streamOf 0 (p ++ q).toList).tokens = taken ++ d.rest := htaken
    rw [hpq] at htokens
    have hflagged := flagged_of_beyond h htokens helse hinside hbeyond
    rw [← hp] at hflagged
    exact hflagged
  · intro t n hp ht
    have hsource : Cursor.ofSource p = { rest := [t], ending := .complete n } := by
      unfold Cursor.ofSource
      rw [hp]
    rw [hsource]
    refine ⟨_, (nextUnit_stuck (c := ⟨[t], .complete n, _, _⟩) (List.cons_ne_nil t []) (statement_type ht n)).1, ?_⟩
    have heof : t.kind.isEof = false := by
      obtain ⟨k, heq, -⟩ := exists_keyword ht
      rw [heq]
      rfl
    unfold Cursor.blame
    rw [heof]
    exact ⟨rfl, rfl, .expression, rfl⟩

/-- The type of a declaration is alone on the first line: the line is refused, though the declaration goes on. -/
theorem split_declaration_refused :
    (∃ u d, nextUnit (Cursor.ofSource ("int\n" ++ "x = 1;")) = (.ok (some u), d) ∧ d.rest = []) ∧
      ∃ diagnostic, (nextUnit (Cursor.ofSource "int\n")).1 = .error diagnostic ∧ diagnostic.incomplete = false ∧
        ∃ tail, tail <:+ (scan "int\n").tokens ∧ Unfinished tail ∧ ∃ t ∈ tail, diagnostic.Blames t := by
  have hunit : ((nextUnit (Cursor.ofSource ("int\n" ++ "x = 1;"))).1.toOption.bind id).isSome = true := by
    decide +kernel
  have hall : (nextUnit (Cursor.ofSource ("int\n" ++ "x = 1;"))).2.rest = [] :=
    List.length_eq_zero_iff.1 (by decide +kernel)
  obtain ⟨u, d, h, hd⟩ : ∃ u d, nextUnit (Cursor.ofSource ("int\n" ++ "x = 1;")) = (.ok (some u), d) ∧ d.rest = [] := by
    generalize nextUnit (Cursor.ofSource ("int\n" ++ "x = 1;")) = r at hunit hall
    obtain ⟨_ | ⟨_ | u⟩, d⟩ := r
    · cases hunit
    · cases hunit
    · exact ⟨u, d, rfl, hall⟩
  refine ⟨⟨u, d, h, hd⟩, ?_⟩
  have htaken : (scan ("int\n" ++ "x = 1;")).tokens = (scan ("int\n" ++ "x = 1;")).tokens ++ d.rest := by
    rw [hd, List.append_nil]
  have helse : ∀ t ∈ (scan ("int\n" ++ "x = 1;")).tokens, t.kind.isKeyword .elseWord = false := by
    decide +kernel
  have hinside : ∃ t ∈ (scan ("int\n" ++ "x = 1;")).tokens, t.span.stop ≤ byteLength "int\n".toList := by
    decide +kernel
  have hbeyond : ∃ t ∈ (scan ("int\n" ++ "x = 1;")).tokens, byteLength "int\n".toList < t.span.stop := by
    decide +kernel
  obtain ⟨diagnostic, hfails, hflag⟩ := (unfinished_unit_flagged "int\n").1 "x = 1;" "int".toList u d _
    (by decide +kernel) h htaken helse hinside hbeyond
  obtain ⟨_, hfails', hopen, -⟩ := (unfinished_unit_flagged "int\n").2 ⟨.keyword .int, "int", ⟨0, 3⟩⟩ 4 rfl rfl
  obtain rfl := Except.error.inj (hfails.symm.trans hfails')
  refine ⟨diagnostic, hfails, hopen, hflag.resolve_left ?_⟩
  rw [hopen]
  exact Bool.false_ne_true

end HostScript
