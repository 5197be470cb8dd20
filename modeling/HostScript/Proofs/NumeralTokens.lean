import HostScript.Proofs.TokenStreams

/-!
# Numerals as tokens

The decimal digits of a number, followed by characters that cannot continue a literal, are read as one token: as an
int if the number is below `2 ^ 31`, and with the suffix `L` as a long if it is below `2 ^ 63`. Greater numbers are
refused, so that no decimal literal is negative.
-/

set_option autoImplicit false

namespace HostScript

open Text

variable {c : Char}

/-! ## Digits -/

/-- The digits of decimal numerals. -/
def decimalDigits : List Char := ['0', '1', '2', '3', '4', '5', '6', '7', '8', '9']

theorem mem_decimalDigits (h : c.isDigit = true) : c ∈ decimalDigits := by
  simp only [Char.isDigit, Bool.and_eq_true, decide_eq_true_eq, UInt32.le_iff_toNat_le, ge_iff_le] at h
  have hval : c.val.toNat = c.toNat := rfl
  have hlow : '0'.val.toNat = 48 := rfl
  have hhigh : '9'.val.toNat = 57 := rfl
  have hall : ∀ n < 58, 48 ≤ n → Char.ofNat n ∈ decimalDigits := by decide
  have hc := hall c.toNat (by omega) (by omega)
  rwa [Char.ofNat_toNat] at hc

/-- What holds of the ten digits holds of every digit. -/
theorem forall_isDigit (p : Char → Bool) (h : decimalDigits.all p = true) (hc : c.isDigit = true) :
    p c = true :=
  List.all_eq_true.1 h c (mem_decimalDigits hc)

theorem isDigit_of_mem_toDigits {k : Nat} (h : c ∈ Nat.toDigits 10 k) : c.isDigit = true :=
  Nat.isDigit_of_mem_toDigits (by decide) (by decide) h

namespace Token

variable {offset : Nat} {first l : Char} {after cs ds rest : List Char}

/-! ## Reading digits -/

theorem ungrouped_digits (h : ∀ c ∈ ds, c.isDigit = true) : ungrouped ds = ds := by
  refine List.filter_eq_self.2 fun c hc => ?_
  exact forall_isDigit (· != '_') (by decide) (h c hc)

/-- Digits and the underscores that group them. -/
def Grouped (ds : List Char) : Prop := ∀ c ∈ ds, c.isDigit = true ∨ c = '_'

instance (ds : List Char) : Decidable (Grouped ds) := List.decidableBAll _ ds

theorem Grouped.of_digits (h : ∀ c ∈ ds, c.isDigit = true) : Grouped ds := fun c hc => .inl (h c hc)

/-- A run of digits is taken whole, and nothing after it that is no part of a literal. -/
theorem splitDecimal_grouped (h : Grouped ds) (hrest : splitDecimal false rest = ([], false, rest)) :
    splitDecimal false (ds ++ rest) = (ds, false, rest) := by
  induction ds with
  | nil => exact hrest
  | cons d ds ih =>
    have hd : (d.isDigit || d == '_') = true := by simpa using h d List.mem_cons_self
    rw [List.cons_append, splitDecimal.eq_def]
    simp only [hd, if_true, ih fun c hc => h c (List.mem_cons_of_mem d hc)]

/-- Characters that do not make a hexadecimal literal of a zero before them. -/
def NoHexMark (cs : List Char) : Prop := cs.head? ≠ some 'x' ∧ cs.head? ≠ some 'X'

theorem scanNumber_eq_scanDecimal (h : first = '0' → NoHexMark cs) :
    scanNumber first cs = scanDecimal first cs := by
  cases cs with
  | nil => rfl
  | cons x cs =>
    refine if_neg fun hmark => ?_
    obtain ⟨hzero, hx⟩ := by simpa using hmark
    exact hx.elim (fun hx => (h hzero).1 (by rw [hx]; rfl)) (fun hx => (h hzero).2 (by rw [hx]; rfl))

theorem noHexMark_grouped (h : Grouped ds) (hrest : ds = [] → NoHexMark rest) :
    NoHexMark (ds ++ rest) := by
  cases ds with
  | nil => exact hrest rfl
  | cons d ds =>
    rcases h d List.mem_cons_self with hd | rfl
    · have hd := forall_isDigit (fun d => d != 'x' && d != 'X') (by decide) hd
      simpa [NoHexMark] using hd
    · simp [NoHexMark]

/-- What is found at a literal: the number that it denotes or, where there is none, the cause. -/
def literalFound (number : Option Number) (cause : LexicalCause) (literal rest : List Char) : Found :=
  match number with
  | some n => .token (.number n) literal rest
  | none => .broken cause ⟨0, byteLength literal⟩

/-- What the digits of a literal and its suffix are read as. -/
def numeralFound (ds : List Char) (suffix : Option Char) (rest : List Char) : Found :=
  literalFound (decimalNumber? (ungrouped ds) suffix false) (.numberLiteral (String.ofList (ds ++ suffix.toList)))
    (ds ++ suffix.toList) rest

/-- Digits without a suffix are an int, if it is in range. -/
theorem decimalNumber?_plain (ds : List Char) : decimalNumber? ds none false =
    if numeral 10 decimalDigit ds < 2 ^ 31 then some (.int (Int32.ofNat (numeral 10 decimalDigit ds))) else none := by
  have hread := numeralBelow?_eq decimalDigit (by decide : 0 < 10) (by decide : 0 < Nat.pow 2 31) ds
  simp only [decimalNumber?, Option.map_none, hread]
  exact apply_ite (Option.map _) (numeral 10 decimalDigit ds < 2 ^ 31) (some _) none

/-- Digits with the suffix of longs are a long, if it is in range. -/
theorem decimalNumber?_suffixed (ds : List Char) (hl : l.toLower = 'l') :
    decimalNumber? ds (some l) false =
    if numeral 10 decimalDigit ds < 2 ^ 63 then some (.long (Int64.ofNat (numeral 10 decimalDigit ds))) else none := by
  have hread := numeralBelow?_eq decimalDigit (by decide : 0 < 10) (by decide : 0 < Nat.pow 2 63) ds
  simp only [decimalNumber?, Option.map_some, hl, hread]
  exact apply_ite (Option.map _) (numeral 10 decimalDigit ds < 2 ^ 63) (some _) none

theorem scanToken_of_isDigit (h : first.isDigit = true) (cs : List Char) :
    scanToken first cs = scanNumber first cs := by
  have hword := forall_isDigit (fun c => !isWordStart c) (by decide) h
  unfold scanToken
  rw [if_neg (by simpa using hword), if_pos h]

theorem scanToken_numeral {suffix : Option Char} (hfirst : first.isDigit = true) (hds : Grouped ds)
    (hafter : splitDecimal false after = ([], false, after))
    (hx : first :: ds = ['0'] → NoHexMark after)
    (hsuffix : splitSuffix ['L', 'l', 'F', 'f', 'D', 'd'] after = (suffix, rest)) :
    scanToken first (ds ++ after) = numeralFound (first :: ds) suffix rest := by
  have hmark : first = '0' → NoHexMark (ds ++ after) := by
    intro hzero
    exact noHexMark_grouped hds fun hnil => hx (by rw [hzero, hnil])
  rw [scanToken_of_isDigit hfirst, scanNumber_eq_scanDecimal hmark]
  unfold scanDecimal
  simp only [splitDecimal_grouped hds hafter, hsuffix]
  rfl

/-- Digits with the suffix of longs. -/
theorem scanToken_suffixed (hfirst : first.isDigit = true) (hds : Grouped ds) (hl : l = 'L' ∨ l = 'l') :
    scanToken first (ds ++ l :: rest) = numeralFound (first :: ds) (some l) rest := by
  rcases hl with rfl | rfl <;>
    exact scanToken_numeral hfirst hds (by rw [splitDecimal.eq_def]; simp) (fun _ => ⟨by simp, by simp⟩)
      (by simp [splitSuffix])

/-! ## Streams -/

theorem skipGap_of_not_blank (hblank : isBlank c = false) (hslash : c ≠ '/') :
    skipGap .plain offset (c :: cs) = .ok (offset, c :: cs) := by
  unfold skipGap
  split <;> simp_all

theorem not_blank_of_isDigit (h : c.isDigit = true) : isBlank c = false ∧ c ≠ '/' := by
  simpa using forall_isDigit (fun c => !isBlank c && c != '/') (by decide) h

/-- A token at the front of a text. -/
theorem streamOf_token {taken : List Char} {kind : Token.Kind} (hblank : isBlank c = false)
    (hslash : c ≠ '/') (h : scanToken c cs = .token kind taken after) :
    streamOf offset (c :: cs) = (streamOf (offset + byteLength taken) after).prepend
      [⟨kind, String.ofList taken, ⟨offset, offset + byteLength taken⟩⟩] := by
  rw [streamOf_eq, skipGap_of_not_blank hblank hslash, afterGap_token h]

/-- Characters at the front of a text that form no token. -/
theorem streamOf_broken {cause : LexicalCause} {span : Span} (hblank : isBlank c = false)
    (hslash : c ≠ '/') (h : scanToken c cs = .broken cause span) :
    streamOf offset (c :: cs) = ⟨[], .broken ⟨.lexical cause, span.shift offset, none⟩⟩ := by
  rw [streamOf_eq, skipGap_of_not_blank hblank hslash, afterGap_broken h]

end Token

end HostScript
