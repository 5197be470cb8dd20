import HostScript.LineLoop
import HostScript.Proofs.SpelledUnits

/-!
# A unit and the text after it

A unit ends with a semicolon or a brace, and it is read from the text up to there whatever comes next, as long as it
is no `else` (`unit_own`, `units_own`). So a text that breaks somewhere runs like the text of its complete units, and
only then its failure counts (`units_depend_on_own_text`).
-/

set_option autoImplicit false

namespace HostScript

open Token (streamOf)

variable {offset : Nat} {u : Stmt} {c c' : Cursor} {cs : List Char} {taken : List Token}

/-! ## Reading a unit again -/

/-- Both go on with the same token, or the second does not go on with `else`. -/
def NoElse (l l' : List Token) : Prop := (∃ t m m', l = t :: m ∧ l' = t :: m') ∨ ¬ ElseNext l'

theorem NoElse.of_append (h : taken ≠ []) (l l' : List Token) : NoElse (taken ++ l) (taken ++ l') := by
  obtain ⟨t, ts, rfl⟩ := List.exists_cons_of_ne_nil h
  exact .inl ⟨t, ts ++ l, ts ++ l', rfl, rfl⟩

/-- A unit is read again wherever its tokens come first, unless an `else` comes after them that did not come before. -/
theorem unit_again {d : Cursor} {r : List Token} (h : nextUnit c = (.ok (some u), c'))
    (hc : c.Onward taken c') (hd : d.rest = taken ++ r) (hlook : NoElse c'.rest r) :
    ∃ d', nextUnit d = (.ok (some u), d') ∧ d.Onward taken d' := by
  obtain ⟨hne, hrun⟩ := nextUnit_some.1 h
  -- some tokens after the unit are the same at both places, and decide that no `else` belongs to it
  obtain ⟨s, m, m', hm, hm', helse⟩ : ∃ s m m', c'.rest = s ++ m ∧ r = s ++ m' ∧ (s = [] → ¬ ElseNext m') := by
    rcases hlook with ⟨t, m, m', hm, hm'⟩ | helse
    · exact ⟨[t], m, m', hm, hm', fun h => by cases h⟩
    · exact ⟨[], c'.rest, r, rfl, rfl, fun _ => helse⟩
  obtain ⟨e, hcut, hon⟩ := statement_prefix (c := { d with rest := taken ++ s }) hrun hc hm rfl
  have hlen : (taken ++ s).length ≤ c.rest.length ∧ (taken ++ s).length ≤ d.rest.length := by
    rw [hc.rest, hd, hm, hm']
    simp only [List.length_append]
    omega
  obtain ⟨e', hcut', hrest⟩ := statement_moved (n := 0) (d := { d with rest := taken ++ s }) hcut
    (Nat.lt_succ_of_le hlen.1) (Nat.lt_succ_of_le hlen.2) (LawfulPlaced.shift_zero _).symm
  rw [LawfulPlaced.shift_zero] at hrest
  rw [show u.shift 0 = u from LawfulPlaced.shift_zero u] at hcut'
  have he : e.rest = s := List.append_cancel_left hon.rest.symm
  have hdrest : d.rest = taken ++ s ++ m' := by rw [hd, hm', List.append_assoc]
  obtain ⟨taken', d', hrun', hon', hd'⟩ := statement_further hcut' hdrest fun hnil =>
    helse (he.symm.trans (hrest.symm.trans hnil))
  obtain rfl : taken' = taken := by
    have heq := hon'.rest.symm
    rw [hrest, he] at heq
    exact List.append_cancel_right heq
  obtain ⟨ts, hts, hnil⟩ := unit_onward h
  obtain rfl : ts = taken' := List.append_cancel_right (hts.rest.symm.trans hc.rest)
  refine ⟨d', nextUnit_some.2 ⟨?_, hrun'⟩, hd'⟩
  rw [hd]
  exact List.append_ne_nil_of_left_ne_nil hnil _

/-! ## Cursors in a text -/

/-- A cursor stands before some characters, at their offset. -/
structure Cursor.Before (c : Cursor) (offset : Nat) (cs : List Char) : Prop where
  rest : c.rest = (streamOf offset cs).tokens
  ending : c.ending = (streamOf offset cs).ending
  consumed : c.consumed = offset

theorem before_ofChars (cs : List Char) : (Cursor.ofChars cs).Before 0 cs := ⟨rfl, rfl, rfl⟩

/-- The first token of a text is the word `else`. -/
def OpensElse (text : String) : Prop := ∃ t ts, (scan text).tokens = t :: ts ∧ t.kind = .keyword .elseWord

/-- A text that does not start with `else` does not do so at another offset. -/
theorem noElse_of_not_opensElse {text : String} (h : ¬ OpensElse text) (l : List Token) (offset : Nat) :
    NoElse l (streamOf offset text.toList).tokens := by
  have hmoved : streamOf offset text.toList = (streamOf 0 text.toList).shift offset := by
    rw [← Token.streamOf_shift, Nat.zero_add]
  refine .inr ?_
  rintro ⟨t, m, htokens, helse⟩
  rw [hmoved] at htokens
  obtain ⟨t0, ts, hscan, rfl, -⟩ := List.map_eq_cons_iff.1 htokens
  exact h ⟨t0, ts, hscan, Token.Kind.eq_keyword helse⟩

/-- A mark that ends a statement. -/
def Closing (c : Char) : Prop := c = ';' ∨ c = '\x7d'

/-- The text of a unit ends with a mark that ends a statement, and the unit is read from it again whatever comes after
it, except for an `else` that did not come before. -/
theorem unit_own (hc : c.Before offset cs) (h : nextUnit c = (.ok (some u), c')) :
    ∃ own mark rest, cs = own ++ [mark] ++ rest ∧ Closing mark ∧ u.span.stop = offset + byteLength (own ++ [mark]) ∧
      c'.Before u.span.stop rest ∧ ∀ rest', NoElse c.rest (streamOf offset (own ++ [mark] ++ rest')).tokens ∧
        (NoElse c'.rest (streamOf u.span.stop rest').tokens → ∀ d, d.Before offset (own ++ [mark] ++ rest') →
          ∃ d', nextUnit d = (.ok (some u), d') ∧ d'.Before u.span.stop rest') := by
  obtain ⟨taken, honward, hspelled⟩ := unit_spelled h
  obtain ⟨ts, last, htaken, hcloses, hlast⟩ := hspelled.ends
  have htokens : (streamOf offset cs).tokens = ts ++ last :: c'.rest := by
    rw [← hc.rest, honward.rest, htaken, List.append_assoc, List.singleton_append]
  obtain ⟨own, mark, rest, rfl, hmark, hstop, hstream⟩ := Token.streamOf_cut htokens hcloses
  rw [← htaken, hlast] at hstream
  have hafter : ∀ {d d' : Cursor} {rest' : List Char}, d.Before offset (own ++ [mark] ++ rest') → d.Onward taken d' →
      d'.Before u.span.stop rest' := by
    intro d d' rest' hd hon
    refine ⟨?_, ?_, ?_⟩
    · have hrest := hon.rest
      rw [hd.rest, hstream] at hrest
      exact (List.append_cancel_left hrest).symm
    · rw [hon.ending, hd.ending, hstream]
      rfl
    · rw [hon.consumed, htaken, lastStop_append]
      exact hlast
  refine ⟨own, mark, rest, rfl, hmark, hlast ▸ hstop, hafter hc honward, fun rest' => ⟨?_, fun hlook d hd => ?_⟩⟩
  · rw [honward.rest, hstream]
    exact .of_append hspelled.ends.ne _ _
  · have hrest : d.rest = taken ++ (streamOf u.span.stop rest').tokens := by rw [hd.rest, hstream]; rfl
    obtain ⟨d', hunit, hon⟩ := unit_again h honward hrest hlook
    exact ⟨d', hunit, hafter hd hon⟩

open Cursor (Gives)

/-- Units one after the other have a text of their own. -/
theorem units_own {us : List Stmt} (h : Gives c us c') (hc : c.Before offset cs) :
    ∃ own rest, cs = own ++ rest ∧ c'.Before (offset + byteLength own) rest ∧
      ∀ rest', NoElse c'.rest (streamOf (offset + byteLength own) rest').tokens →
        NoElse c.rest (streamOf offset (own ++ rest')).tokens ∧ ∀ d, d.Before offset (own ++ rest') →
          ∃ d', Gives d us d' ∧ d'.Before (offset + byteLength own) rest' := by
  induction h generalizing offset cs with
  | done c => exact ⟨[], cs, rfl, hc, fun rest' hlook => ⟨hlook, fun d hd => ⟨d, .done d, hd⟩⟩⟩
  | @unit c c1 c' u us hunit hlater ih =>
    obtain ⟨own1, mark, rest1, rfl, -, hstop, hc1, hfirst⟩ := unit_own hc hunit
    obtain ⟨own, rest, rfl, hc', hothers⟩ := ih hc1
    have hoffset : u.span.stop + byteLength own = offset + byteLength (own1 ++ [mark] ++ own) := by
      rw [hstop, byteLength_append (own1 ++ [mark]), Nat.add_assoc]
    rw [hoffset] at hc' hothers
    refine ⟨own1 ++ [mark] ++ own, rest, (List.append_assoc _ _ _).symm, hc', fun rest' hlook => ?_⟩
    obtain ⟨hlook1, hothers⟩ := hothers rest' hlook
    obtain ⟨hnext, hfirst⟩ := hfirst (own ++ rest')
    rw [List.append_assoc _ own]
    refine ⟨hnext, fun d hd => ?_⟩
    obtain ⟨d1, hunit', hd1⟩ := hfirst hlook1 d hd
    obtain ⟨d', hgives, hd'⟩ := hothers d1 hd1
    exact ⟨d', .unit hunit' hgives, hd'⟩

/-! ## Running a text that breaks -/

/-- The second computation does what the first one does, and then it may go on. -/
def Exec.Continues {α : Type} (x y : Exec α) (more : α → Exec α) : Prop :=
  ∀ m, (∀ f m', x m = .error f m' → y m = .error f m') ∧
    ∀ a m', x m = .ok a m' → y m = .ok a m' ∨ y m = more a m'

namespace Exec.Continues

variable {α β : Type} {more : β → Exec β}

theorem refl (x : Exec β) : Continues x x more := fun _ => ⟨fun _ _ h => h, fun _ _ h => .inl h⟩

theorem bind (x : Exec α) {f g : α → Exec β} (h : ∀ a, Continues (f a) (g a) more) :
    Continues (x >>= f) (x >>= g) more := by
  intro m
  show (∀ e m', EStateM.bind x f m = .error e m' → EStateM.bind x g m = .error e m') ∧
    ∀ b m', EStateM.bind x f m = .ok b m' → EStateM.bind x g m = .ok b m' ∨ EStateM.bind x g m = more b m'
  unfold EStateM.bind
  cases x m with
  | ok a m1 => exact h a m1
  | error e m1 => exact ⟨fun _ _ h => h, fun _ _ h => .inl h⟩

end Exec.Continues

namespace Evaluator

open Exec

/-- Units run the same before a failure to read on; it comes after the last one, unless a unit returns. -/
theorem runUnits_continues (ev : Evaluator) (label : Option String) (d : Diagnostic) (last : Value) (us : List Stmt) :
    Continues (ev.runUnits label none last us) (ev.runUnits label (some d) last us)
      fun v => unlessFailed v (throw ((Failure.unread d).label label)) := by
  induction us generalizing last with
  | nil =>
    intro m
    refine ⟨fun f m' h => (by cases h), fun a m' h => ?_⟩
    cases h
    exact .inr rfl
  | cons unit rest ih =>
    refine .bind _ fun flow => .bind _ fun _ => ?_
    cases flow with
    | normal v => exact ih v
    | returned v => exact .refl _
    | broke => exact .refl _
    | continued => exact .refl _

theorem runText_continues (ev : Evaluator) {own source : String} {d : Diagnostic} (label : Option String)
    (hown : (readUnits own).2 = none) (hsource : (readUnits source).2 = some d)
    (hsame : (readUnits own).1.map Prod.fst = (readUnits source).1.map Prod.fst) :
    Continues (ev.runText own label) (ev.runText source label)
      fun v => unlessFailed v (throw ((Failure.unread d).label label)) := by
  have hruns : ∀ text, ev.runText text label =
      ev.runUnits label (readUnits text).2 .void ((readUnits text).1.map Prod.fst) := fun _ => rfl
  rw [hruns own, hruns source, hown, hsource, hsame]
  exact runUnits_continues ev label d .void _

end Evaluator

/-- What the loop does after the complete units of a text: it waits for the rest, or it reports the failure. -/
def Tail.settle : Tail → Exec String
  | .complete => pure ""
  | .unfinished rest => pure rest
  | .broken d => do
    Exec.report (.unread d)
    return ""

namespace Evaluator

open Exec

theorem drain_continues (ev : Evaluator) {own source : String} (atEnd : Bool) (hown : (readUnits own).2 = none)
    (hsame : (readUnits own).1.map Prod.fst = (readUnits source).1.map Prod.fst) :
    Continues (ev.drain own atEnd) (ev.drain source atEnd) fun _ => (takeUnits source atEnd).2.settle := by
  have hdrain : ∀ text, ev.drain text atEnd = ev.runAllUnits ((readUnits text).1.map Prod.fst) >>= fun done =>
      if done then (takeUnits text atEnd).2.settle else pure "" := fun _ => rfl
  have htail : (takeUnits own atEnd).2 = .complete := by
    unfold takeUnits
    generalize readUnits own = r at hown
    obtain ⟨units, failure⟩ := r
    obtain rfl : failure = none := hown
    rfl
  rw [hdrain own, hdrain source, hsame, htail]
  refine .bind _ fun done => ?_
  cases done with
  | false => exact .refl _
  | true =>
    intro m
    refine ⟨fun f m' h => (by cases h), fun a m' h => ?_⟩
    cases h
    exact .inr rfl

end Evaluator

/-! ## The text of the complete units -/

theorem unit_own_text {source : String} (h : nextUnit (Cursor.ofSource source) = (.ok (some u), c)) :
    ∃ own mark rest, source = String.ofList (own ++ [mark]) ++ rest ∧ Closing mark ∧
      byteLength (own ++ [mark]) = c.consumed ∧ u.span.stop = c.consumed ∧
        ∀ text, ¬ OpensElse text → ∃ c', nextUnit (Cursor.ofSource (String.ofList (own ++ [mark]) ++ text)) =
          (.ok (some u), c') ∧ c'.consumed = c.consumed := by
  obtain ⟨own, mark, rest, hsource, hmark, hstop, hc, hagain⟩ := unit_own (before_ofChars source.toList) h
  rw [Nat.zero_add] at hstop
  refine ⟨own, mark, String.ofList rest, ?_, hmark, ?_, hc.consumed.symm, fun text htext => ?_⟩
  · apply String.toList_inj.1
    simpa using hsource
  · rw [hc.consumed, hstop]
  · have hstart : (Cursor.ofSource (String.ofList (own ++ [mark]) ++ text)).Before 0
      (own ++ [mark] ++ text.toList) := by
      have hbefore := before_ofChars (String.ofList (own ++ [mark]) ++ text).toList
      rw [String.toList_append, String.toList_ofList] at hbefore
      rw [ofSource_eq, String.toList_append, String.toList_ofList]
      exact hbefore
    obtain ⟨c', hunit, hc'⟩ := (hagain text.toList).2 (noElse_of_not_opensElse htext _ _) _ hstart
    exact ⟨c', hunit, hc'.consumed.trans hc.consumed.symm⟩

theorem units_own_text (source : String) :
    ∃ own rest, source = own ++ rest ∧
      byteLength own.toList = ((readUnits source).1.getLast?.map Prod.snd).getD 0 ∧
        parseUnits own = .ok ((readUnits source).1.map Prod.fst) := by
  obtain ⟨c, hgives, hstop, -⟩ := unitsFrom_gives (Nat.lt_succ_self (Cursor.ofSource source).rest.length)
  obtain ⟨own, rest, hsource, hc, hagain⟩ := units_own hgives (before_ofChars source.toList)
  rw [Nat.zero_add] at hc hagain
  have hempty : streamOf (byteLength own) [] = ⟨[], .complete (byteLength own)⟩ := rfl
  refine ⟨String.ofList own, String.ofList rest, ?_, ?_, parsesTo_iff.1 ?_⟩
  · apply String.toList_inj.1
    simpa using hsource
  · rw [String.toList_ofList, ← hc.consumed]
    exact hstop.symm
  · have hstart := before_ofChars (own ++ [])
    obtain ⟨-, hruns⟩ := hagain [] (.inr (by simp [hempty, ElseNext]))
    obtain ⟨d, hd, hend⟩ := hruns _ hstart
    rw [String.toList_ofList]
    rw [List.append_nil] at hd
    exact ⟨d, hd, by rw [hend.rest, hempty], _, by rw [hend.ending, hempty]⟩

/-- A unit is told by its own text. It ends, with its span, at a semicolon or a brace, and the text up to there gives
the same unit whatever comes after it, unless that starts with `else`. So a text has the text of its complete units at
its front, and it runs as that text does, unit by unit: only then comes the failure to read on, or the loop waits for
more lines or reports the failure. -/
theorem units_depend_on_own_text (source : String) :
    (∀ u c, nextUnit (Cursor.ofSource source) = (.ok (some u), c) →
      0 < c.consumed ∧ c.consumed = u.span.stop ∧
        ∃ own rest, source = own ++ rest ∧ byteLength own.toList = c.consumed ∧
          (∃ front mark, own.toList = front ++ [mark] ∧ Closing mark) ∧
            ∀ text, ¬ OpensElse text → ∃ c', nextUnit (Cursor.ofSource (own ++ text)) = (.ok (some u), c') ∧
              c'.consumed = c.consumed) ∧
    ∀ d, (readUnits source).2 = some d → ∃ own rest, source = own ++ rest ∧
        byteLength own.toList = ((readUnits source).1.getLast?.map Prod.snd).getD 0 ∧
          parseUnits own = .ok ((readUnits source).1.map Prod.fst) ∧
            (∀ ev label, Exec.Continues (Evaluator.runText ev own label) (Evaluator.runText ev source label)
              fun v => Exec.unlessFailed v (throw ((Failure.unread d).label label))) ∧
            ∀ ev atEnd, Exec.Continues (Evaluator.drain ev own atEnd) (Evaluator.drain ev source atEnd)
              fun _ => (takeUnits source atEnd).2.settle := by
  refine ⟨fun u c h => ?_, fun d hd => ?_⟩
  · obtain ⟨own, mark, rest, hsource, hmark, hlength, hstop, hagain⟩ := unit_own_text h
    refine ⟨?_, hstop.symm, _, rest, hsource, ?_, ⟨own, mark, ?_, hmark⟩, hagain⟩
    · rw [← hlength]
      exact byteLength_pos (by simp)
    · rw [String.toList_ofList, hlength]
    · rw [String.toList_ofList]
  · obtain ⟨own, rest, hsource, hlength, hparses⟩ := units_own_text source
    obtain ⟨hunits, hcomplete⟩ := (parsesTo_iff.2 hparses).readUnits
    refine ⟨own, rest, hsource, hlength, hparses, fun ev label => ?_, fun ev atEnd => ?_⟩
    · exact ev.runText_continues label hcomplete hd hunits
    · exact ev.drain_continues atEnd hcomplete hunits

/-- A choice that could go on with `else`, and a text literal that is not closed. -/
def brokenText : String := "if (a) b = 1; c = \"x"

theorem broken_text_keeps_its_unit : ∃ u c d own rest, nextUnit (Cursor.ofSource brokenText) = (.ok (some u), c) ∧
    (readUnits brokenText).2 = some d ∧ brokenText = own ++ rest ∧ byteLength own.toList = c.consumed ∧
      ¬ OpensElse "@ /*" ∧ ∃ c', nextUnit (Cursor.ofSource (own ++ "@ /*")) = (.ok (some u), c') ∧
        c'.consumed = c.consumed := by
  have hunit : (nextUnit (Cursor.ofSource brokenText)).1.toOption.join.isSome = true := by decide +kernel
  have hbroken : (readUnits brokenText).2.isSome = true := by decide +kernel
  have helse : (scan "@ /*").tokens.length = 0 := by decide +kernel
  have hopens : ¬ OpensElse "@ /*" := by
    rintro ⟨t, ts, hscan, -⟩
    rw [hscan] at helse
    cases helse
  obtain ⟨d, hd⟩ := Option.isSome_iff_exists.1 hbroken
  generalize hnext : nextUnit (Cursor.ofSource brokenText) = r at hunit
  obtain ⟨_ | ⟨_ | u⟩, c⟩ := r
  · cases hunit
  · cases hunit
  · obtain ⟨-, -, own, rest, hsource, hlength, -, hagain⟩ := (units_depend_on_own_text brokenText).1 u c hnext
    exact ⟨u, c, d, own, rest, rfl, hd, hsource, hlength, hopens, hagain _ hopens⟩

end HostScript
