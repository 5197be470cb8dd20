import HostScript.Proofs.SpelledUnits
import HostScript.Proofs.TokenTiling
import HostScript.Proofs.UnfinishedUnits

/-!
# Malformed tokens

Characters that form no token look like the end of the text to the reader, but it is never told to wait for more text
because of them: a unit that is refused after they were looked at is refused with their own diagnostic. A unit that is
complete before them is given, and then their diagnostic comes next, once (`malformed_token_reported`).
-/

set_option autoImplicit false

namespace HostScript

/-- The places of a text that reading it unit by unit comes to, also behind what was refused. -/
inductive Cursor.Reached (source : String) : Cursor → Prop
  | start : Cursor.Reached source (Cursor.ofSource source)
  | next {c : Cursor} (h : Cursor.Reached source c) : Cursor.Reached source (nextUnit c).2

/-- Reading the next unit asks for what comes after the tokens that are left. -/
def Cursor.Asks (c : Cursor) : Prop := c.rest = [] ∨ (nextUnit c).2.met = true

/-- A place before characters that form no token, of which no unit has been told yet. -/
structure Cursor.Awaits (d : Diagnostic) (c : Cursor) : Prop where
  ending : c.ending = .broken d
  met : c.met = true → c.rest = []
  tokens : ∀ t ∈ c.rest, t.kind ≠ .eof

/-- What reading a unit comes to at such a place: the diagnostic of the characters, if they were looked at; a token
that the grammar refuses; or a unit. -/
inductive Cursor.Meets (d : Diagnostic) (c : Cursor) : Except Diagnostic (Option Stmt) × Cursor → Prop
  | reported {c' : Cursor} (hasked : c.rest = [] ∨ c'.met = true) (hending : ∃ n, c'.ending = .complete n) :
      Cursor.Meets d c (.error d, c')
  | refused {failure : Diagnostic} {c' : Cursor} {t : Token} (ht : t ∈ c.rest) (hblames : failure.Blames t)
      (hmet : c'.met = false) (h : c'.Awaits d) : Cursor.Meets d c (.error failure, c')
  | unit {u : Stmt} {c' : Cursor} (hne : c.rest ≠ []) (h : c'.Awaits d) : Cursor.Meets d c (.ok (some u), c')

variable {source : String} {d : Diagnostic} {c c' : Cursor} {u : Stmt}

/-- A statement after which the end was looked at took all tokens. -/
theorem statement_met {b : Nat} (h : Read.statement b c = .ok u c') (hmet : c.met = false) (hmet' : c'.met = true) :
    c'.rest = [] := by
  have hboth := Read.closes_statement (b := b).both [] c c (List.append_nil _).symm List.nil_prefix
  rw [h] at hboth
  cases hboth with
  | together _ _ _ hsame _ =>
    rw [hmet', hmet] at hsame
    cases hsame
  | edge hc' _ _ _ _ => exact List.self_eq_append_right.1 hc'.rest
  | lost _ _ _ hlost _ =>
    cases hlost with
    | ok _ _ _ _ hopen => exact absurd trivial hopen

/-- Where no tokens are left, the characters that form none are reported, and then comes the end. -/
theorem nextUnit_broken (hnil : c.rest = []) (hending : c.ending = .broken d) :
    nextUnit c = (.error d, c.settle) ∧ nextUnit c.settle = (.ok none, c.settle) := by
  unfold nextUnit
  rw [hnil, hending, show c.settle.rest = [] from hnil]
  exact ⟨rfl, rfl⟩

/-- Where tokens are left, a statement is read from them, or the reader gets stuck. -/
theorem nextUnit_cons (hne : c.rest ≠ []) :
    (∃ u c' taken, Read.statement (c.rest.length + 1) c = .ok u c' ∧ nextUnit c = (.ok (some u), c') ∧
      c.Onward taken c') ∨
    ∃ s c', c.Stopped s c' ∧ nextUnit c = (.error (c'.blame s), if c'.met then c'.settle else c') := by
  have hsure := Read.takes_statement (b := c.rest.length + 1).run c List.nil_prefix
  generalize hr : Read.statement (c.rest.length + 1) c = r at hsure
  cases hsure with
  | ok taken htaken _ => exact .inl ⟨_, _, taken, rfl, nextUnit_some.2 ⟨hne, hr⟩, htaken⟩
  | error hs =>
    obtain ⟨hfailure, hplace⟩ := nextUnit_stuck hne hr
    exact .inr ⟨_, _, hs, Prod.ext hfailure hplace⟩

/-- One step before characters that form no token. -/
theorem Cursor.Awaits.meets (h : c.Awaits d) : c.Meets d (nextUnit c) := by
  by_cases hne : c.rest = []
  · rw [(nextUnit_broken hne h.ending).1]
    exact .reported (.inl hne) ⟨_, rfl⟩
  have hmet : c.met = false := Bool.eq_false_iff.2 (hne ∘ h.met)
  rcases nextUnit_cons hne with ⟨u, c', taken, hr, hunit, htaken⟩ | ⟨s, c', hs, hstuck⟩
  · rw [hunit]
    exact .unit hne ⟨htaken.ending.trans h.ending, statement_met hr hmet, fun t ht =>
      h.tokens t (htaken.suffix.subset ht)⟩
  · have hending := hs.ending.trans h.ending
    rw [hstuck]
    cases hmet' : c'.met with
    | true =>
      rw [blame_broken hending hmet']
      exact .reported (.inr hmet') ⟨_, rfl⟩
    | false =>
      have htoken : s.token ∈ c.rest := hs.token.resolve_right fun heof => by simp [hmet'] at heof
      refine .refused htoken ?_ hmet' ⟨hending, fun hmet => ?_, fun t ht => h.tokens t (hs.rest.subset ht)⟩
      · unfold Cursor.blame
        rw [hending, hmet', Token.Kind.isEof_eq_false (h.tokens _ htoken)]
        exact ⟨rfl, s.cause, rfl⟩
      · exact absurd (hmet'.symm.trans hmet) Bool.false_ne_true

/-- One step where the tokens end with the text. -/
theorem nextUnit_complete {n : Nat} (h : c.ending = .complete n) : (∃ m, (nextUnit c).2.ending = .complete m) ∧
    ∀ failure, (nextUnit c).1 = .error failure → failure.isLexical = false := by
  by_cases hne : c.rest = []
  · have hnext : nextUnit c = (.ok none, c) := by
      unfold nextUnit
      rw [hne, h]
    rw [hnext]
    exact ⟨⟨n, h⟩, fun _ hfailure => by cases hfailure⟩
  rcases nextUnit_cons hne with ⟨u, c', taken, -, hunit, htaken⟩ | ⟨s, c', hs, hstuck⟩
  · rw [hunit]
    exact ⟨⟨n, htaken.ending.trans h⟩, fun _ hfailure => by cases hfailure⟩
  · have hending := hs.ending.trans h
    rw [hstuck]
    refine ⟨?_, fun failure hfailure => ?_⟩
    · cases c'.met with
      | true => exact ⟨_, rfl⟩
      | false => exact ⟨n, hending⟩
    · obtain rfl := Except.error.inj hfailure
      unfold Cursor.blame
      rw [hending]
      rfl

theorem lexical_of_broken (h : (scan source).ending = .broken d) : ∃ cause, d.cause = .lexical cause := by
  obtain ⟨gaps, before, tail, -, -, -, -, hends⟩ := (Token.tiled_streamOf 0 source.toList).woven
  rw [show (Token.streamOf 0 source.toList).ending = .broken d from h] at hends
  cases hends with
  | opened _ _ => exact ⟨_, rfl⟩
  | broken _ _ => exact ⟨_, rfl⟩

/-- Every place that reading comes to is before the characters that form no token, or behind their diagnostic. -/
theorem Cursor.Reached.awaits (hbroken : (scan source).ending = .broken d) (h : c.Reached source) :
    c.Awaits d ∨ ∃ n, c.ending = .complete n := by
  induction h with
  | start =>
    exact .inl ⟨hbroken, fun hmet => (by cases hmet), fun t ht => (Token.lexed_streamOf 0 source.toList t ht).2⟩
  | @next c _ ih =>
    rcases ih with hawaits | ⟨n, hn⟩
    · have hmeets := hawaits.meets
      generalize nextUnit c = r at hmeets
      cases hmeets with
      | reported _ hending => exact .inr hending
      | refused _ _ _ h => exact .inl h
      | unit _ h => exact .inl h
    · exact .inr (nextUnit_complete hn).1

/-- Characters that form no token have a lexical diagnostic, which calls for more text only if they open a comment. As
long as it has not been reported, reading a unit never comes to the end of the text; if it fails it reports this
diagnostic if the characters were looked at, and blames a token otherwise; and if it gives a unit though they were
looked at, the diagnostic comes next, and then the end. Once reported it is not reported again. -/
theorem malformed_token_reported (hbroken : (scan source).ending = .broken d) :
    (∃ cause, d.cause = .lexical cause ∧ (d.incomplete = true ↔ cause = .openComment)) ∧
    ∀ c, Cursor.Reached source c → (c.ending = .broken d ∧ (nextUnit c).1 ≠ .ok none ∧
        (∀ failure c', nextUnit c = (.error failure, c') →
          (c.Asks → failure = d ∧ ∃ n, c'.ending = .complete n) ∧
          (¬ c.Asks → c'.ending = .broken d ∧ failure.incomplete = false ∧ ∃ t ∈ c.rest, failure.Blames t)) ∧
        ∀ u c', nextUnit c = (.ok (some u), c') → c'.ending = .broken d ∧
          (c.Asks → nextUnit c' = (.error d, c'.settle) ∧ nextUnit c'.settle = (.ok none, c'.settle))) ∨
      (∃ n, c.ending = .complete n) ∧ (∃ n, (nextUnit c).2.ending = .complete n) ∧
        ∀ failure, (nextUnit c).1 = .error failure → failure ≠ d := by
  obtain ⟨cause, hcause⟩ := lexical_of_broken hbroken
  refine ⟨⟨cause, hcause, by simp [Diagnostic.incomplete, hcause]⟩, fun c hc => ?_⟩
  rcases hc.awaits hbroken with hawaits | ⟨n, hn⟩
  · have hmeets := hawaits.meets
    refine .inl ⟨hawaits.ending, ?_⟩
    unfold Cursor.Asks
    generalize nextUnit c = r at hmeets
    cases hmeets with
    | reported hasked hending =>
      refine ⟨fun hnone => (by cases hnone), fun failure c' hr => ?_, fun u c' hr => by cases hr⟩
      cases hr
      exact ⟨fun _ => ⟨rfl, hending⟩, fun hasks => absurd hasked hasks⟩
    | @refused _ _ t ht hblames hmet h =>
      refine ⟨fun hnone => (by cases hnone), fun failure c' hr => ?_, fun u c' hr => by cases hr⟩
      cases hr
      refine ⟨fun hasks => ?_, fun _ => ⟨h.ending, ?_, t, ht, hblames⟩⟩
      · rcases hasks with hnil | hmet'
        · exact absurd (hnil ▸ ht) List.not_mem_nil
        · exact absurd (hmet.symm.trans hmet') Bool.false_ne_true
      · obtain ⟨cause, hfound⟩ := hblames.found
        simp [Diagnostic.incomplete, hfound]
    | unit hne h =>
      refine ⟨fun hnone => (by cases hnone), fun failure c' hr => (by cases hr), fun u c' hr => ?_⟩
      cases hr
      refine ⟨h.ending, fun hasks => ?_⟩
      exact nextUnit_broken (h.met (hasks.resolve_left hne)) h.ending
  · obtain ⟨hending, hlexical⟩ := nextUnit_complete hn
    refine .inr ⟨⟨n, hn⟩, hending, fun failure hfailure => ?_⟩
    rintro rfl
    have hother := hlexical failure hfailure
    simp [Diagnostic.isLexical, hcause] at hother

/-- A choice that could go on with `else`, and a text literal that is not closed. -/
theorem choice_before_open_text : ∃ d u c, (scan "if (a) b; \"").ending = .broken d ∧ d.incomplete = false ∧
    nextUnit (Cursor.ofSource "if (a) b; \"") = (.ok (some u), c) ∧ (Cursor.ofSource "if (a) b; \"").Asks ∧
      nextUnit c = (.error d, c.settle) ∧ nextUnit c.settle = (.ok none, c.settle) := by
  have hbroken : (scan "if (a) b; \"").ending = .broken ⟨.lexical .openText, ⟨10, 11⟩, none⟩ := rfl
  have hunit : ((nextUnit (Cursor.ofSource "if (a) b; \"")).1.toOption.bind id).isSome = true := by decide +kernel
  have hasks : (Cursor.ofSource "if (a) b; \"").Asks := .inr (by decide +kernel)
  obtain ⟨-, hplaces⟩ := malformed_token_reported hbroken
  rcases hplaces _ .start with ⟨-, -, -, hunits⟩ | ⟨⟨n, hn⟩, -⟩
  · generalize hr : nextUnit (Cursor.ofSource "if (a) b; \"") = r at hunit
    obtain ⟨_ | ⟨_ | u⟩, c⟩ := r
    · cases hunit
    · cases hunit
    · obtain ⟨hnext, hlater⟩ := (hunits u c hr).2 hasks
      exact ⟨_, u, c, hbroken, rfl, rfl, hasks, hnext, hlater⟩
  · cases hbroken.symm.trans hn

end HostScript
