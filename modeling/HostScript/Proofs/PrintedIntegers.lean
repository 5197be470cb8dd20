import HostScript.Interpreter
import HostScript.Proofs.IntegerLiterals

/-!
# Printed integers

The text of an int, or the text of a long with the suffix `L`, is a script whose value is that number, in every
state of the interpreter (`printed_integers_read_back`). A negative number is read as the opposite of its digits.
So there is one exception in each width: the digits of the least number are one too great for a literal.
-/

set_option autoImplicit false

namespace HostScript

open Text Token

variable {n : Int} {k : Nat} {number : Number} {text : String} {literal : List Char}

/-! ## How numbers are written -/

/-- A number as it is written in a script: its sign and a literal. -/
def signed (n : Int) (literal : List Char) : List Char := if n < 0 then '-' :: literal else literal

theorem toList_toString (n : Int) : (toString n).toList = signed n (Nat.toDigits 10 n.natAbs) := by
  cases n with
  | ofNat k =>
    have htext : toString (Int.ofNat k) = k.repr := rfl
    rw [htext]
    simp [Nat.repr_eq_ofList_toDigits, signed]
  | negSucc k =>
    have htext : toString (Int.negSucc k) = "-" ++ (k + 1).repr := rfl
    rw [htext]
    simp [Nat.repr_eq_ofList_toDigits, signed]

theorem toList_int (n : Int32) : (Primitive.int n).text.toList = signed n.toInt (Nat.toDigits 10 n.toInt.natAbs) :=
  toList_toString n.toInt

theorem toList_long (n : Int64) :
    ((Primitive.long n).text ++ "L").toList = signed n.toInt (Nat.toDigits 10 n.toInt.natAbs ++ ['L']) := by
  have htext : (Primitive.long n).text = toString n.toInt := rfl
  rw [String.toList_append, htext, toList_toString, signed, signed]
  split <;> rfl

/-- A literal that starts with a digit and with which no statement ends. -/
structure IsOpen (literal : List Char) : Prop where
  head : ∃ first cs, literal = first :: cs ∧ first.isDigit = true
  last : ∃ cs c, literal = cs ++ [c] ∧ isBlank c = false ∧ endsStatement [c] = false

theorem isOpen_digits (k : Nat) : IsOpen (Nat.toDigits 10 k) := by
  have hdigit : ∀ c ∈ Nat.toDigits 10 k, c.isDigit = true := fun c hc => isDigit_of_mem_toDigits hc
  constructor
  · obtain ⟨first, cs, hcs⟩ := List.exists_cons_of_ne_nil (Nat.toDigits_ne_nil (n := k) (b := 10))
    exact ⟨first, cs, hcs, hdigit first (by simp [hcs])⟩
  · obtain ⟨cs, c, hcs⟩ := (List.eq_nil_or_concat (Nat.toDigits 10 k)).resolve_left Nat.toDigits_ne_nil
    have hlast := forall_isDigit (fun d => !isBlank d && !endsStatement [d]) (by decide) (hdigit c (by simp [hcs]))
    exact ⟨cs, c, by simp [hcs], by simpa using hlast⟩

theorem isOpen_long (k : Nat) : IsOpen (Nat.toDigits 10 k ++ ['L']) := by
  obtain ⟨first, cs, hcs, hfirst⟩ := (isOpen_digits k).head
  exact ⟨⟨first, cs ++ ['L'], by simp [hcs], hfirst⟩, _, 'L', rfl, by decide, by decide⟩

/-- A text that ends neither with a blank nor where a statement ends gets a semicolon. -/
theorem terminated_signed (h : IsOpen literal) (htext : text.toList = signed n literal) :
    terminated text = String.ofList (signed n (literal ++ [';'])) := by
  obtain ⟨cs, c, rfl, hblank, hopen⟩ := h.last
  have hlast : ∃ ds, text.toList = ds ++ [c] ∧ signed n (cs ++ [c] ++ [';']) = ds ++ [c] ++ [';'] := by
    by_cases hn : n < 0
    · exact ⟨'-' :: cs, by simpa [signed, hn] using htext, by simp [signed, hn]⟩
    · exact ⟨cs, by simpa [signed, hn] using htext, by simp [signed, hn]⟩
  obtain ⟨ds, hds, hwritten⟩ := hlast
  have htrim : trimEnd text.toList = ds ++ [c] := by simp [trimEnd, hds, hblank]
  have hends : endsStatement (ds ++ [c]) = false := by simpa [endsStatement] using hopen
  rw [hwritten]
  simp [terminated, closeStatement, htrim, hends]

/-! ## How they are read -/

theorem decimalRun_toDigits (k : Nat) : DecimalRun (Nat.toDigits 10 k) := by
  obtain ⟨first, cs, hcs, hfirst⟩ := (isOpen_digits k).head
  exact ⟨by simpa [hcs] using hfirst, .of_digits fun c hc => isDigit_of_mem_toDigits hc⟩

theorem denoted_toDigits (k : Nat) : denoted 10 (Nat.toDigits 10 k) = k := by
  rw [← numeral_grouped (decimalRun_toDigits k).grouped, ungrouped_digits fun c hc => isDigit_of_mem_toDigits hc]
  exact Nat.ofDigitChars_ten_toDigits

/-- Before a semicolon, the digits of a number are an int if it is in range. -/
theorem int_placed (k offset : Nat) : let digits := Nat.toDigits 10 k
    (k < 2 ^ 31 → Reads offset digits [';'] (.int (Int32.ofNat k))) ∧
      (2 ^ 31 ≤ k → Refuses offset digits [';'] (.numberLiteral (String.ofList digits))) := by
  have h := decimal_plain offset [';'] (decimalRun_toDigits k) ⟨by simp, by simp, by simp, by simp [NoHexMark]⟩
  rwa [denoted_toDigits] at h

theorem long_placed (k offset : Nat) : let digits := Nat.toDigits 10 k ++ ['L']
    (k < 2 ^ 63 → Reads offset digits [';'] (.long (Int64.ofNat k))) ∧
      (2 ^ 63 ≤ k → Refuses offset digits [';'] (.numberLiteral (String.ofList digits))) := by
  have h := decimal_suffixed offset [';'] (decimalRun_toDigits k) (.inl rfl)
  rwa [denoted_toDigits] at h

/-- A minus before a digit is a token of its own. -/
theorem streamOf_minus {d : Char} (hd : d.isDigit = true) (offset : Nat) (cs : List Char) :
    streamOf offset ('-' :: d :: cs) =
      (streamOf (offset + 1) (d :: cs)).prepend [⟨.mark .minus, "-", ⟨offset, offset + 1⟩⟩] := by
  have hdouble : doubleMark? '-' d = none := by
    simpa using forall_isDigit (fun d => (doubleMark? '-' d).isNone) (by decide) hd
  have hscan : scanToken '-' (d :: cs) = .token (.mark .minus) ['-'] (d :: cs) := by
    have hword : isWordStart '-' = false := by decide
    simp [scanToken, scanMark, hword, hdouble, singleMark?]
  exact streamOf_token (by decide) (by decide) hscan

/-- The tokens of a number that is written with its sign. -/
theorem scan_signed (h : IsOpen literal) (n : Int) : scan (String.ofList (signed n (literal ++ [';']))) =
    if n < 0 then (streamOf 1 (literal ++ [';'])).prepend [⟨.mark .minus, "-", ⟨0, 1⟩⟩]
    else streamOf 0 (literal ++ [';']) := by
  obtain ⟨first, cs, rfl, hfirst⟩ := h.head
  rw [scan, String.toList_ofList, signed]
  split
  · exact streamOf_minus hfirst 0 _
  · rfl

/-- The expression that a number is read as. -/
def literalOf (negative : Bool) (outer inner : Span) (number : Number) : Expr :=
  if negative then .unary outer .negate (.literal inner (.number number)) else .literal inner (.number number)

theorem readUnits_signed (h : IsOpen literal) (n : Int) (hreads : ∀ offset, Reads offset literal [';'] number) :
    ∃ span outer inner stop, readUnits (String.ofList (signed n (literal ++ [';']))) =
      ([(.expr span (literalOf (n < 0) outer inner number), stop)], none) := by
  unfold Reads at hreads
  simp only [readUnits, Cursor.ofSource, scan_signed h, hreads]
  by_cases hn : n < 0
  · simp only [hn, if_true, decide_true]
    exact ⟨⟨0, 1 + byteLength literal + 1⟩, ⟨0, _⟩, ⟨1, _⟩, _, rfl⟩
  · simp only [hn, if_false, decide_false]
    exact ⟨⟨0, 0 + byteLength literal + 1⟩, ⟨0, 0⟩, ⟨0, _⟩, _, rfl⟩

/-- The digits of a negative number may be too great although the number is not. -/
theorem readUnits_refused (h : IsOpen literal) (hn : n < 0) {cause : LexicalCause}
    (hrefuses : Refuses 1 literal [';'] cause) :
    readUnits (String.ofList (signed n (literal ++ [';']))) =
      ([], some ⟨.lexical cause, ⟨1, 1 + byteLength literal⟩, none⟩) := by
  rw [Refuses] at hrefuses
  simp only [readUnits, Cursor.ofSource, scan_signed h, if_pos hn, hrefuses]
  rfl

/-! ## What their value is -/

namespace Evaluator

variable {ev : Evaluator} {m : Machine} {scope : ScopeId}

/-- A text that consists of one expression whose evaluation changes nothing. -/
theorem eval_of_unit {unit : Stmt} {stop : Nat} {p : Primitive}
    (hread : readUnits (terminated text) = ([(unit, stop)], none))
    (hunit : ∀ m, ev.stmt unit m = .ok (.normal (.primitive p)) m) :
    ev.eval text scope m = .ok (.primitive p) m := by
  have hrun : ∀ m, ev.runText (terminated text) none m = .ok (.primitive p) m := by
    intro m
    have hsteady : Exec.steadily (ev.stmt unit) m = .ok (.normal (.primitive p)) m := by
      simp [Exec.steadily, hunit]
    simp only [runText, hread, List.map_cons, List.map_nil, runUnits]
    simp only [bind, EStateM.bind, Exec.unlessFailed, Exec.onFailure, Exec.mapFailure, hsteady]
    rfl
  unfold eval evalLabelled
  simp only [hrun]
  by_cases hpushed : m.stack.head? = some scope <;> simp [hpushed, Machine.restack, StackChange.apply]

/-- A text of which nothing can be read. -/
theorem eval_of_unreadable {d : Diagnostic} (hread : readUnits (terminated text) = ([], some d)) :
    ev.eval text scope m = .error ((Failure.unread d).label none) m := by
  have hrun : ∀ m, ev.runText (terminated text) none m = .error ((Failure.unread d).label none) m := by
    intro m
    simp only [runText, hread, List.map_nil, runUnits]
    rfl
  unfold eval evalLabelled
  simp only [hrun]
  by_cases hpushed : m.stack.head? = some scope <;> simp [hpushed, Machine.restack, StackChange.apply]

end Evaluator

/-- The value of a number, or of its opposite. -/
def Number.signed (negative : Bool) : Number → Primitive
  | .int n => .int (if negative then -n else n)
  | .long n => .long (if negative then -n else n)
  | .float x => .float (if negative then -x else x)
  | .double x => .double (if negative then -x else x)

theorem evalStmt_literalOf (a : Nat) (negative : Bool) (span outer inner : Span) (number : Number) (m : Machine) :
    evalStmt (a + 3) (.expr span (literalOf negative outer inner number)) m =
      .ok (.normal (.primitive (number.signed negative))) m := by
  cases negative <;> cases number <;> rfl

theorem int_of_digits {n : Int32} (h : n ≠ Int32.minValue) :
    n.toInt.natAbs < 2 ^ 31 ∧ (Number.int (Int32.ofNat n.toInt.natAbs)).signed (n.toInt < 0) = .int n := by
  have hlow := n.le_toInt
  have hhigh := n.toInt_lt
  have hmin : n.toInt ≠ -2 ^ 31 := fun hn => h (Int32.toInt_inj.1 hn)
  refine ⟨by omega, congrArg Primitive.int (Int32.toInt_inj.1 ?_)⟩
  by_cases hneg : n.toInt < 0
  · simp only [hneg, decide_true, if_true]
    rw [Int32.toInt_neg, Int32.toInt_ofNat_of_lt (by omega), Int.bmod_eq_of_le] <;> omega
  · simp only [hneg, decide_false, Bool.false_eq_true, if_false]
    rw [Int32.toInt_ofNat_of_lt] <;> omega

theorem long_of_digits {n : Int64} (h : n ≠ Int64.minValue) :
    n.toInt.natAbs < 2 ^ 63 ∧ (Number.long (Int64.ofNat n.toInt.natAbs)).signed (n.toInt < 0) = .long n := by
  have hlow := n.le_toInt
  have hhigh := n.toInt_lt
  have hmin : n.toInt ≠ -2 ^ 63 := fun hn => h (Int64.toInt_inj.1 hn)
  refine ⟨by omega, congrArg Primitive.long (Int64.toInt_inj.1 ?_)⟩
  by_cases hneg : n.toInt < 0
  · simp only [hneg, decide_true, if_true]
    rw [Int64.toInt_neg, Int64.toInt_ofNat_of_lt (by omega), Int.bmod_eq_of_le] <;> omega
  · simp only [hneg, decide_false, Bool.false_eq_true, if_false]
    rw [Int64.toInt_ofNat_of_lt] <;> omega

section

variable {a : Nat} {m : Machine} {scope : ScopeId}

theorem eval_signed (h : IsOpen literal) (htext : text.toList = signed n literal)
    (hreads : ∀ offset, Reads offset literal [';'] number) :
    (evaluator (a + 3)).eval text scope m = .ok (.primitive (number.signed (n < 0))) m := by
  obtain ⟨span, outer, inner, stop, hread⟩ := readUnits_signed h n hreads
  rw [← terminated_signed h htext] at hread
  exact Evaluator.eval_of_unit hread fun m => evalStmt_literalOf a _ span outer inner number m

theorem eval_refused (h : IsOpen literal) (htext : text.toList = signed n literal) (hn : n < 0) {cause : LexicalCause}
    (hrefuses : Refuses 1 literal [';'] cause) : (evaluator a).eval text scope m =
      .error (.unread ⟨.lexical cause, ⟨1, 1 + byteLength literal⟩, none⟩) m := by
  have hread := readUnits_refused h hn hrefuses
  rw [← terminated_signed h htext] at hread
  exact Evaluator.eval_of_unreadable hread

end

/-- **Printed integers read back.** In every state, the value of the text of an int is that int, and the value of the
text of a long with the suffix `L` is that long; the state is left as it was. The least int and the least long are
the only exceptions: their digits are refused as malformed before the minus applies. -/
theorem printed_integers_read_back (a : Nat) (m : Machine) (scope : ScopeId) :
    (∀ n : Int32, n ≠ Int32.minValue →
      (evaluator (a + 3)).eval (Primitive.int n).text scope m = .ok (.primitive (.int n)) m) ∧
    (∀ n : Int64, n ≠ Int64.minValue →
      (evaluator (a + 3)).eval ((Primitive.long n).text ++ "L") scope m = .ok (.primitive (.long n)) m) ∧
    (evaluator a).eval (Primitive.int Int32.minValue).text scope m =
      .error (.unread ⟨.lexical (.numberLiteral "2147483648"), ⟨1, 11⟩, none⟩) m ∧
    (evaluator a).eval ((Primitive.long Int64.minValue).text ++ "L") scope m =
      .error (.unread ⟨.lexical (.numberLiteral "9223372036854775808L"), ⟨1, 21⟩, none⟩) m := by
  refine ⟨fun n hn => ?_, fun n hn => ?_, ?_, ?_⟩
  · obtain ⟨hbound, hvalue⟩ := int_of_digits hn
    rw [eval_signed (isOpen_digits _) (toList_int n) fun offset => (int_placed _ offset).1 hbound, hvalue]
  · obtain ⟨hbound, hvalue⟩ := long_of_digits hn
    rw [eval_signed (isOpen_long _) (toList_long n) fun offset => (long_placed _ offset).1 hbound, hvalue]
  · exact eval_refused (isOpen_digits _) (toList_int _) (by decide) ((int_placed _ 1).2 (by decide))
  · exact eval_refused (isOpen_long _) (toList_long _) (by decide) ((long_placed _ 1).2 (by decide))

/-- The least int but one reads back in a fresh interpreter. -/
theorem least_but_one_reads_back :
    (-2147483647 : Int32) ≠ Int32.minValue ∧
      (evaluator 3).eval "-2147483647" ⟨0, 0⟩ (Machine.initial {} ⟨fun _ => .unknown⟩ "w" []) =
        .ok (.primitive (.int (-2147483647))) (Machine.initial {} ⟨fun _ => .unknown⟩ "w" []) := by
  have hne : (-2147483647 : Int32) ≠ Int32.minValue := by decide
  exact ⟨hne, (printed_integers_read_back 0 _ ⟨0, 0⟩).1 (-2147483647) hne⟩

end HostScript
