import HostScript.Proofs.NumeralTokens

/-!
# Integer literals

A literal of digits, with underscores between them, is read as the number that its digits denote (`denoted`), or
refused because the number is out of range, wherever it stands and whatever follows it
(`integer_literals_denote`). Decimal literals reach up to the greatest int or, with a suffix, the greatest long.
Hexadecimal ones without a suffix wrap around into the negative ints.
-/

set_option autoImplicit false

namespace HostScript.Token

open Text

variable {c : Char} {ds rest run : List Char}

/-! ## What digits denote -/

/-- The digits of hexadecimal numerals. -/
def hexDigits : List Char := decimalDigits ++ ['a', 'b', 'c', 'd', 'e', 'f', 'A', 'B', 'C', 'D', 'E', 'F']

/-- The value of a digit: its place among the digits, in lower case. -/
def digitValue (c : Char) : Nat := hexDigits.idxOf c.toLower

/-- The number that digits denote, the most significant digit first and underscores left out. -/
def denoted (base : Nat) (run : List Char) : Nat := Nat.ofDigits base ((ungrouped run).reverse.map digitValue)

theorem numeral_eq_ofDigits (base : Nat) (digit : Char → Nat) (cs : List Char) :
    numeral base digit cs = Nat.ofDigits base (cs.reverse.map digit) := by
  induction cs with
  | nil => rfl
  | cons c cs ih =>
    have hdigit : numeral base digit [c] = digit c := by simp [numeral, numeralFrom]
    have happend := numeral_append base digit [c] cs
    rw [List.singleton_append] at happend
    rw [happend, hdigit, ih, List.reverse_cons, List.map_append, Nat.ofDigits_append]
    simp [Nat.add_comm, Nat.mul_comm]

/-- Both ways to value a digit give the same number, if they agree on the digits there are. -/
theorem numeral_ungrouped {base : Nat} {digit : Char → Nat}
    (h : ∀ c ∈ run, c ≠ '_' → digit c = digitValue c) :
    numeral base digit (ungrouped run) = denoted base run := by
  rw [numeral_eq_ofDigits, denoted]
  refine congrArg _ (List.map_congr_left fun c hc => ?_)
  obtain ⟨hmem, hc⟩ := List.mem_filter.1 (List.mem_reverse.1 hc)
  exact h c hmem (by simpa using hc)

theorem numeral_grouped (h : Grouped run) : numeral 10 decimalDigit (ungrouped run) = denoted 10 run := by
  refine numeral_ungrouped fun c hc hunderscore => ?_
  have hvalue := forall_isDigit (fun c => decimalDigit c == digitValue c) (by decide)
    ((h c hc).resolve_right hunderscore)
  exact beq_iff_eq.1 hvalue

/-- Hexadecimal digits and the underscores that group them. -/
def HexGrouped (ds : List Char) : Prop := ∀ c ∈ ds, c ∈ hexDigits ∨ c = '_'

instance (ds : List Char) : Decidable (HexGrouped ds) := List.decidableBAll _ ds

theorem numeral_hexGrouped (h : HexGrouped ds) : numeral 16 hexDigit (ungrouped ds) = denoted 16 ds := by
  have hall : hexDigits.all (fun c => hexDigit c == digitValue c) = true := by decide
  refine numeral_ungrouped fun c hc hunderscore => ?_
  exact beq_iff_eq.1 (List.all_eq_true.1 hall c ((h c hc).resolve_right hunderscore))

theorem mem_of_between {low high : Char} {l : List Char} (hlow : low ≤ c) (hhigh : c ≤ high)
    (h : ∀ n < high.toNat + 1, low.toNat ≤ n → Char.ofNat n ∈ l) : c ∈ l := by
  have hc := h c.toNat (Nat.lt_succ_of_le hhigh) hlow
  rwa [Char.ofNat_toNat] at hc

/-- The characters of a hexadecimal literal are its digits and underscores. -/
theorem isHexChar_iff : isHexChar c = true ↔ c ∈ hexDigits ∨ c = '_' := by
  constructor
  · intro h
    simp only [isHexChar, Bool.or_eq_true, Bool.and_eq_true, decide_eq_true_eq, beq_iff_eq] at h
    rcases h with ((h | h) | h) | h
    · exact .inl (List.mem_append_left _ (mem_decimalDigits h))
    · exact .inl (mem_of_between h.1 h.2 (by decide))
    · exact .inl (mem_of_between h.1 h.2 (by decide))
    · exact .inr h
  · rintro (h | rfl)
    · exact List.all_eq_true.1 (by decide : hexDigits.all isHexChar = true) c h
    · decide

/-! ## Where a literal ends -/

/-- What stands after a run of digits does not continue it: no further digit, no fraction, no exponent, no suffix, and
no mark of hexadecimal digits after a single zero. -/
structure Ended (run rest : List Char) : Prop where
  digit : ∀ c ∈ rest.head?, c.isDigit = false
  letter : ∀ c ∈ rest.head?, c ∉ ['_', 'e', 'E', 'L', 'l', 'F', 'f', 'D', 'd']
  fraction : ∀ d cs, rest = '.' :: d :: cs → d.isDigit = false
  mark : run = ['0'] → NoHexMark rest

theorem Ended.splitDecimal (h : Ended run rest) : splitDecimal false rest = ([], false, rest) := by
  cases rest with
  | nil => rfl
  | cons c cs =>
    have hdigit := h.digit c rfl
    have hletter := h.letter c rfl
    have hpoint : c = '.' → cs.head?.any Char.isDigit = false := by
      rintro rfl
      cases cs with
      | nil => rfl
      | cons d cs => exact h.fraction d cs rfl
    rw [Token.splitDecimal.eq_def]
    simp at hletter
    simpa [hdigit, hletter] using hpoint

theorem splitSuffix_none {letters : List Char} (h : ∀ c ∈ rest.head?, c ∉ letters) :
    splitSuffix letters rest = (none, rest) := by
  cases rest with
  | nil => rfl
  | cons c cs => simp [Token.splitSuffix, h c rfl]

theorem Ended.splitSuffix (h : Ended run rest) : splitSuffix ['L', 'l', 'F', 'f', 'D', 'd'] rest = (none, rest) :=
  splitSuffix_none fun c hc hl => h.letter c hc (List.mem_append_right ['_', 'e', 'E'] hl)

/-- What stands after hexadecimal digits does not continue the literal. -/
structure HexEnded (rest : List Char) : Prop where
  digit : ∀ c ∈ rest.head?, c ∉ hexDigits
  letter : ∀ c ∈ rest.head?, c ∉ ['_', 'L', 'l']

theorem HexEnded.head (h : HexEnded rest) : ∀ c ∈ rest.head?, isHexChar c = false := by
  intro c hc
  rw [← Bool.not_eq_true, isHexChar_iff]
  rintro (hdigit | rfl)
  · exact h.digit c hc hdigit
  · exact h.letter '_' hc (by decide)

theorem HexEnded.splitSuffix (h : HexEnded rest) : splitSuffix ['L', 'l'] rest = (none, rest) :=
  splitSuffix_none fun c hc hl => h.letter c hc (List.mem_cons_of_mem '_' hl)

/-! ## Reading hexadecimal digits -/

/-- The number of hexadecimal digits and a suffix. -/
def hexNumber? (ds : List Char) (suffix : Option Char) : Option Number :=
  if ds.isEmpty then none
  else if suffix.isSome then
    (numeralBelow? 16 hexDigit (Nat.pow 2 63) ds).map fun n => Number.long (Int64.ofNat n)
  else (numeralBelow? 16 hexDigit (Nat.pow 2 32) ds).map fun n => Number.int (Int32.ofNat n)

theorem scanHex_grouped (zero x : Char) {after : List Char} {suffix : Option Char}
    (hds : HexGrouped ds) (hafter : ∀ c ∈ after.head?, isHexChar c = false)
    (hsuffix : splitSuffix ['L', 'l'] after = (suffix, rest)) :
    scanHex zero x (ds ++ after) = literalFound (hexNumber? (ungrouped ds) suffix) .hexLiteral
      (zero :: x :: ds ++ suffix.toList) rest := by
  have hall : ∀ c ∈ ds, isHexChar c = true := fun c hc => isHexChar_iff.2 (hds c hc)
  have hstop : after.takeWhile isHexChar = [] ∧ after.dropWhile isHexChar = after := by
    cases after with
    | nil => exact ⟨rfl, rfl⟩
    | cons c cs => simp [hafter c rfl]
  have htake : (ds ++ after).takeWhile isHexChar = ds := by
    rw [List.takeWhile_append_of_pos hall, hstop.1, List.append_nil]
  have hdrop : (ds ++ after).dropWhile isHexChar = after := by
    rw [List.dropWhile_append_of_pos hall, hstop.2]
  unfold scanHex hexNumber?
  simp only [htake, hdrop, hsuffix]
  rfl

theorem ungrouped_isEmpty : (ungrouped ds).isEmpty = true ↔ ¬ ∃ c ∈ ds, c ≠ '_' := by
  simp [ungrouped]

theorem hexNumber?_empty (h : ¬ ∃ c ∈ ds, c ≠ '_') (suffix : Option Char) :
    hexNumber? (ungrouped ds) suffix = none := if_pos (ungrouped_isEmpty.2 h)

theorem numeralBelow?_grouped (h : HexGrouped ds) {limit : Nat} (hlimit : 0 < limit) (f : Nat → Number) :
    (numeralBelow? 16 hexDigit limit (ungrouped ds)).map f =
      if denoted 16 ds < limit then some (f (denoted 16 ds)) else none := by
  rw [numeralBelow?_eq hexDigit (by decide) hlimit, numeral_hexGrouped h]
  exact apply_ite (Option.map f) _ _ _

theorem hexNumber?_plain (h : HexGrouped ds) (hdigit : ∃ c ∈ ds, c ≠ '_') :
    hexNumber? (ungrouped ds) none =
      if denoted 16 ds < 2 ^ 32 then some (.int (Int32.ofNat (denoted 16 ds))) else none :=
  (if_neg fun hempty => ungrouped_isEmpty.1 hempty hdigit).trans (numeralBelow?_grouped h (by decide) _)

theorem hexNumber?_suffixed (h : HexGrouped ds) (hdigit : ∃ c ∈ ds, c ≠ '_') (l : Char) :
    hexNumber? (ungrouped ds) (some l) =
      if denoted 16 ds < 2 ^ 63 then some (.long (Int64.ofNat (denoted 16 ds))) else none :=
  (if_neg fun hempty => ungrouped_isEmpty.1 hempty hdigit).trans (numeralBelow?_grouped h (by decide) _)

/-! ## Literals at their place -/

/-- At an offset, a literal is one token with a number, and what follows is read from its end on. -/
def Reads (offset : Nat) (literal rest : List Char) (number : Number) : Prop :=
  streamOf offset (literal ++ rest) = (streamOf (offset + byteLength literal) rest).prepend
    [⟨.number number, String.ofList literal, ⟨offset, offset + byteLength literal⟩⟩]

/-- At an offset, a literal is refused as a whole. -/
def Refuses (offset : Nat) (literal rest : List Char) (cause : LexicalCause) : Prop :=
  streamOf offset (literal ++ rest) = ⟨[], .broken ⟨.lexical cause, ⟨offset, offset + byteLength literal⟩, none⟩⟩

section Placing

variable {first : Char} {cs literal : List Char} {cause : LexicalCause} (offset : Nat)

/-- What is found at a literal tells how a text goes on that begins with it. -/
theorem literalFound_placed {number : Option Number} (hfirst : first.isDigit = true)
    (hcs : literal ++ rest = first :: cs)
    (h : scanToken first cs = literalFound number cause literal rest) :
    (∀ n, number = some n → Reads offset literal rest n) ∧ (number = none → Refuses offset literal rest cause) := by
  obtain ⟨hblank, hslash⟩ := not_blank_of_isDigit hfirst
  unfold Reads Refuses
  rw [hcs]
  constructor
  · rintro n rfl
    exact streamOf_token hblank hslash h
  · rintro rfl
    rw [streamOf_broken hblank hslash h]
    simp [Span.shift, Nat.add_comm]

end Placing

/-- A literal that is read below a limit is refused from there on. -/
theorem limited {number : Option Number} {f : Nat → Number} {v limit : Nat} {p : Number → Prop} {q : Prop}
    (h : number = if v < limit then some (f v) else none)
    (hplaced : (∀ n, number = some n → p n) ∧ (number = none → q)) : (v < limit → p (f v)) ∧ (limit ≤ v → q) :=
  ⟨fun hv => hplaced.1 _ (by rw [h, if_pos hv]), fun hv => hplaced.2 (by rw [h, if_neg (Nat.not_lt.2 hv)])⟩

/-- Digits and underscores, with a digit first. -/
structure DecimalRun (run : List Char) : Prop where
  head : run.head?.any Char.isDigit = true
  grouped : Grouped run

theorem DecimalRun.cases (h : DecimalRun run) :
    ∃ first ds, run = first :: ds ∧ first.isDigit = true ∧ Grouped ds := by
  cases run with
  | nil => cases h.head
  | cons first ds => exact ⟨first, ds, rfl, h.head, fun c hc => h.grouped c (List.mem_cons_of_mem first hc)⟩

section Placing

variable {x l : Char} (offset : Nat) (rest : List Char)

theorem decimal_plain (h : DecimalRun run) (hend : Ended run rest) :
    (denoted 10 run < 2 ^ 31 → Reads offset run rest (.int (Int32.ofNat (denoted 10 run)))) ∧
      (2 ^ 31 ≤ denoted 10 run → Refuses offset run rest (.numberLiteral (String.ofList run))) := by
  obtain ⟨first, ds, rfl, hfirst, hds⟩ := h.cases
  have hscan := scanToken_numeral hfirst hds hend.splitDecimal hend.mark hend.splitSuffix
  simp only [numeralFound, Option.toList_none, List.append_nil] at hscan
  rw [← numeral_grouped h.grouped]
  exact limited (f := fun v => .int (Int32.ofNat v)) (decimalNumber?_plain _)
    (literalFound_placed offset hfirst rfl hscan)

theorem decimal_suffixed (h : DecimalRun run) (hl : l = 'L' ∨ l = 'l') :
    (denoted 10 run < 2 ^ 63 → Reads offset (run ++ [l]) rest (.long (Int64.ofNat (denoted 10 run)))) ∧
      (2 ^ 63 ≤ denoted 10 run → Refuses offset (run ++ [l]) rest (.numberLiteral (String.ofList (run ++ [l])))) := by
  obtain ⟨first, ds, rfl, hfirst, hds⟩ := h.cases
  have hscan := @scanToken_suffixed first l ds rest hfirst hds hl
  have hlower : l.toLower = 'l' := by rcases hl with rfl | rfl <;> decide
  rw [← numeral_grouped h.grouped]
  exact limited (f := fun v => .long (Int64.ofNat v)) (decimalNumber?_suffixed _ hlower)
    (literalFound_placed offset hfirst (by simp) hscan)

theorem scanToken_hex (hx : x = 'x' ∨ x = 'X') (cs : List Char) : scanToken '0' (x :: cs) = scanHex '0' x cs := by
  rw [scanToken_of_isDigit rfl]
  rcases hx with rfl | rfl <;> rfl

theorem hex_plain (hx : x = 'x' ∨ x = 'X') (h : HexGrouped ds) (hend : HexEnded rest) (number : Option Number)
    (hnumber : hexNumber? (ungrouped ds) none = number) :
    (∀ n, number = some n → Reads offset ('0' :: x :: ds) rest n) ∧
      (number = none → Refuses offset ('0' :: x :: ds) rest .hexLiteral) := by
  have hscan := scanHex_grouped '0' x h hend.head hend.splitSuffix
  rw [← scanToken_hex hx, hnumber, Option.toList_none, List.append_nil] at hscan
  exact literalFound_placed offset rfl rfl hscan

theorem hex_suffixed (hx : x = 'x' ∨ x = 'X') (h : HexGrouped ds) (hl : l = 'L' ∨ l = 'l') (number : Option Number)
    (hnumber : hexNumber? (ungrouped ds) (some l) = number) :
    (∀ n, number = some n → Reads offset ('0' :: x :: (ds ++ [l])) rest n) ∧
      (number = none → Refuses offset ('0' :: x :: (ds ++ [l])) rest .hexLiteral) := by
  have hsuffix : splitSuffix ['L', 'l'] (l :: rest) = (some l, rest) := by
    rcases hl with rfl | rfl <;> simp [Token.splitSuffix]
  have hafter : ∀ c ∈ (l :: rest).head?, isHexChar c = false := by
    rintro c ⟨⟩
    rcases hl with rfl | rfl <;> decide
  have hscan := scanHex_grouped '0' x h hafter hsuffix
  rw [← scanToken_hex hx, hnumber] at hscan
  exact literalFound_placed offset rfl (by simp) hscan

end Placing

/-- **Integer literals denote their value or are refused.** At every offset, a run of decimal digits and underscores
that nothing continues is read as the int that it denotes, or refused from `2 ^ 31` on; with a suffix it is read as a
long, or refused from `2 ^ 63` on. Hexadecimal digits are read as the int that is congruent to what they denote, if
that is below `2 ^ 32`, or with a suffix as a long; without a digit they are refused. The token or the diagnostic spans
the whole literal. -/
theorem integer_literals_denote (offset : Nat) (rest : List Char) :
    (∀ run, DecimalRun run → Ended run rest → (denoted 10 run < 2 ^ 31 →
        ∃ n : Int32, n.toInt = denoted 10 run ∧ Reads offset run rest (.int n)) ∧
      (2 ^ 31 ≤ denoted 10 run → Refuses offset run rest (.numberLiteral (String.ofList run)))) ∧
    (∀ run l, DecimalRun run → l = 'L' ∨ l = 'l' → (denoted 10 run < 2 ^ 63 →
        ∃ n : Int64, n.toInt = denoted 10 run ∧ Reads offset (run ++ [l]) rest (.long n)) ∧
      (2 ^ 63 ≤ denoted 10 run →
        Refuses offset (run ++ [l]) rest (.numberLiteral (String.ofList (run ++ [l]))))) ∧
    (∀ x ds, x = 'x' ∨ x = 'X' → HexGrouped ds → HexEnded rest →
      ((∃ c ∈ ds, c ≠ '_') → denoted 16 ds < 2 ^ 32 →
        ∃ n : Int32, n.toInt ≡ denoted 16 ds [ZMOD 2 ^ 32] ∧ Reads offset ('0' :: x :: ds) rest (.int n)) ∧
      (¬ (∃ c ∈ ds, c ≠ '_') ∨ 2 ^ 32 ≤ denoted 16 ds → Refuses offset ('0' :: x :: ds) rest .hexLiteral)) ∧
    ∀ x ds l, x = 'x' ∨ x = 'X' → HexGrouped ds → l = 'L' ∨ l = 'l' →
      ((∃ c ∈ ds, c ≠ '_') → denoted 16 ds < 2 ^ 63 →
        ∃ n : Int64, n.toInt = denoted 16 ds ∧ Reads offset ('0' :: x :: (ds ++ [l])) rest (.long n)) ∧
      (¬ (∃ c ∈ ds, c ≠ '_') ∨ 2 ^ 63 ≤ denoted 16 ds →
        Refuses offset ('0' :: x :: (ds ++ [l])) rest .hexLiteral) := by
  refine ⟨fun run h hend => ?_, fun run l h hl => ?_, fun x ds hx h hend => ?_, fun x ds l hx h hl => ?_⟩
  · obtain ⟨hreads, hrefuses⟩ := decimal_plain offset rest h hend
    exact ⟨fun hv => ⟨_, Int32.toInt_ofNat_of_lt hv, hreads hv⟩, hrefuses⟩
  · obtain ⟨hreads, hrefuses⟩ := decimal_suffixed offset rest h hl
    exact ⟨fun hv => ⟨_, Int64.toInt_ofNat_of_lt hv, hreads hv⟩, hrefuses⟩
  · by_cases hdigit : ∃ c ∈ ds, c ≠ '_'
    · obtain ⟨hreads, hrefuses⟩ := limited (f := fun v => .int (Int32.ofNat v)) (hexNumber?_plain h hdigit)
        (hex_plain offset rest hx h hend _ rfl)
      refine ⟨fun _ hv => ⟨_, ?_, hreads hv⟩, fun hv => hrefuses (hv.resolve_left (not_not_intro hdigit))⟩
      rw [Int32.toInt_ofNat']
      exact Int.bmod_emod
    · exact ⟨fun hdigit' => absurd hdigit' hdigit, fun _ =>
        (hex_plain offset rest hx h hend _ (hexNumber?_empty hdigit _)).2 rfl⟩
  · by_cases hdigit : ∃ c ∈ ds, c ≠ '_'
    · obtain ⟨hreads, hrefuses⟩ := limited (f := fun v => .long (Int64.ofNat v)) (hexNumber?_suffixed h hdigit l)
        (hex_suffixed offset rest hx h hl _ rfl)
      exact ⟨fun _ hv => ⟨_, Int64.toInt_ofNat_of_lt hv, hreads hv⟩,
        fun hv => hrefuses (hv.resolve_left (not_not_intro hdigit))⟩
    · exact ⟨fun hdigit' => absurd hdigit' hdigit,
        fun _ => (hex_suffixed offset rest hx h hl _ (hexNumber?_empty hdigit _)).2 rfl⟩

/-- The greatest int with its digits grouped, one more than it, and all bits of an int. -/
theorem integer_literals_at_the_limits :
    (∃ n : Int32, n.toInt = 2147483647 ∧ Reads 3 "2_147_483__647".toList [';'] (.int n)) ∧
      Refuses 0 "02147483648".toList ['.', 'x'] (.numberLiteral "02147483648") ∧
      (∃ n : Int64, n.toInt = 2147483648 ∧ Reads 0 "2147483648l".toList ['0'] (.long n)) ∧
      ∃ n : Int32, n.toInt ≡ 4294967295 [ZMOD 2 ^ 32] ∧ Reads 0 "0X_fFFF_ffff".toList [] (.int n) := by
  obtain ⟨hplain, -, -, -⟩ := integer_literals_denote 3 [';']
  obtain ⟨hpoint, -, -, -⟩ := integer_literals_denote 0 ['.', 'x']
  obtain ⟨-, hlong, -, -⟩ := integer_literals_denote 0 ['0']
  obtain ⟨-, -, hhex, -⟩ := integer_literals_denote 0 []
  have hvalue : denoted 10 "2_147_483__647".toList = 2147483647 := by decide
  have hgreater : denoted 10 "02147483648".toList = 2147483648 := by decide
  have hgreater' : denoted 10 "2147483648".toList = 2147483648 := by decide
  have hbits : denoted 16 "_fFFF_ffff".toList = 4294967295 := by decide
  refine ⟨?_, ?_, ?_, ?_⟩
  · obtain ⟨n, hn, hreads⟩ := (hplain "2_147_483__647".toList ⟨rfl, by decide⟩
      ⟨by simp, by simp, by simp, by simp⟩).1 (by rw [hvalue]; decide)
    exact ⟨n, by rw [hn, hvalue]; rfl, hreads⟩
  · exact (hpoint "02147483648".toList ⟨rfl, by decide⟩ ⟨by simp, by simp, by simp, by simp⟩).2
      (by rw [hgreater]; decide)
  · obtain ⟨n, hn, hreads⟩ := (hlong "2147483648".toList 'l' ⟨rfl, by decide⟩ (.inr rfl)).1 (by rw [hgreater']; decide)
    exact ⟨n, by rw [hn, hgreater']; rfl, hreads⟩
  · obtain ⟨n, hn, hreads⟩ := (hhex 'X' "_fFFF_ffff".toList (.inr rfl) (by decide) ⟨by simp, by simp⟩).1
      ⟨'f', by decide, by decide⟩ (by rw [hbits]; decide)
    rw [hbits] at hn
    exact ⟨n, hn, hreads⟩

end HostScript.Token
