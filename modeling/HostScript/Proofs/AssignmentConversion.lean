import HostScript.Proofs.TypedSteps

/-!
# Assignment of whole numbers

Assignment takes a whole number to an integral kind exactly if the kind is at least as wide as the number's
own, or if the kind has at most 16 bits, the number is no long, and it lies between the bounds of the kind.
The number stays what it is (`assignment_keeps_number`), but for the codes that no character has: they become
the replacement character.
-/

set_option autoImplicit false

namespace HostScript

namespace Kind

variable {k target : Kind}

/-- The least number that an integral kind is meant for. -/
def lowest : Kind → Int
  | .byte => -2 ^ 7
  | .short => -2 ^ 15
  | .int => -2 ^ 31
  | .long => -2 ^ 63
  | _ => 0

/-- The greatest number that an integral kind is meant for. -/
def highest : Kind → Int
  | .char => 2 ^ 16 - 1
  | .byte => 2 ^ 7 - 1
  | .short => 2 ^ 15 - 1
  | .int => 2 ^ 31 - 1
  | .long => 2 ^ 63 - 1
  | _ => 0

/-- A number between the bounds of a kind. -/
def Holds (k : Kind) (n : Int) : Prop := k.lowest ≤ n ∧ n ≤ k.highest

instance (k : Kind) (n : Int) : Decidable (k.Holds n) := inferInstanceAs (Decidable (_ ∧ _))

/-- A kind whose numbers are all numbers of the other. -/
def Within (k target : Kind) : Prop := target.lowest ≤ k.lowest ∧ k.highest ≤ target.highest

instance (k target : Kind) : Decidable (k.Within target) := inferInstanceAs (Decidable (_ ∧ _))

/-- The kinds of at most 16 bits. -/
def IsSmall (k : Kind) : Prop := k = .byte ∨ k = .short ∨ k = .char

theorem Holds.within {n : Int} (h : k.Holds n) (hw : k.Within target) : target.Holds n :=
  ⟨hw.1.trans h.1, h.2.trans hw.2⟩

/-- Widening is inclusion of the numbers. -/
theorem widensTo_iff_within (hk : k.isIntegral = true) (ht : target.isIntegral = true) :
    k.widensTo target = true ↔ k.Within target := by
  cases k <;> cases hk <;> cases target <;> cases ht <;> decide

end Kind

/-- A code in the gap of the character range. -/
def IsSurrogate (n : Int) : Prop := 0xD800 ≤ n ∧ n ≤ 0xDFFF

instance (n : Int) : Decidable (IsSurrogate n) := inferInstanceAs (Decidable (_ ∧ _))

/-- The character that stands for codes that no character has. -/
def replacementChar : Char := Char.ofNat 0xFFFD

namespace Primitive

variable {p q : Primitive} {n : Int64} {target : Kind}

/-! ## Numbers and their kinds -/

theorem exists_toInt64? (h : p.kind.isIntegral = true) : ∃ n, p.toInt64? = some n := by
  cases p <;> first | exact ⟨_, rfl⟩ | cases h

theorem isValidChar_toNat (c : Char) : c.toNat.isValidChar := c.valid

theorem toInt_char (c : Char) : (Int64.ofNat c.toNat).toInt = c.toNat := by
  apply Int64.toInt_ofNat_of_lt
  have hvalid := isValidChar_toNat c
  omega

theorem not_isSurrogate (h : p.toInt64? = some n) (hk : p.kind = .char) : ¬ IsSurrogate n.toInt := by
  cases p with
  | char c =>
    cases h
    have hvalid := isValidChar_toNat c
    rw [toInt_char]
    unfold IsSurrogate
    omega
  | _ => cases hk

theorem isIntegral_kind (h : p.toInt64? = some n) : p.kind.isIntegral = true := by
  cases p <;> first | rfl | cases h

/-- A value lies between the bounds of its kind, unless it is a character beyond the first 65536. -/
theorem holds_of_toInt64? (h : p.toInt64? = some n) (hchar : p.kind ≠ .char) : p.kind.Holds n.toInt := by
  cases p with
  | char c => exact absurd rfl hchar
  | byte m =>
    cases h
    rw [Int8.toInt_toInt64]
    exact ⟨m.le_toInt, by have := m.toInt_lt; simp only [kind, Kind.highest]; omega⟩
  | short m =>
    cases h
    rw [Int16.toInt_toInt64]
    exact ⟨m.le_toInt, by have := m.toInt_lt; simp only [kind, Kind.highest]; omega⟩
  | int m =>
    cases h
    rw [Int32.toInt_toInt64]
    exact ⟨m.le_toInt, by have := m.toInt_lt; simp only [kind, Kind.highest]; omega⟩
  | long m =>
    cases h
    exact ⟨n.le_toInt, by have := n.toInt_lt; simp only [kind, Kind.highest]; omega⟩
  | bool | float | double | void | null => cases h

/-- A wider kind is meant for every value, the characters beyond the first 65536 included. -/
theorem holds_of_wider (h : p.toInt64? = some n) (ht : target.isIntegral = true) (hne : p.kind ≠ target)
    (hw : p.kind.Within target) : target.Holds n.toInt := by
  cases p with
  | char c =>
    cases h
    have hvalid := isValidChar_toNat c
    rw [toInt_char]
    cases target <;> cases ht
    · exact absurd rfl hne
    · exact absurd hw (show ¬ Kind.char.Within .byte by decide)
    · exact absurd hw (show ¬ Kind.char.Within .short by decide)
    · exact ⟨by simp only [Kind.lowest]; omega, by simp only [Kind.highest]; omega⟩
    · exact ⟨by simp only [Kind.lowest]; omega, by simp only [Kind.highest]; omega⟩
  | byte | short | int | long => exact (holds_of_toInt64? h (by simp [kind])).within hw
  | bool | float | double | void | null => cases h

/-! ## Conversion -/

theorem toNat_toUInt64 (h : 0 ≤ n.toInt) : n.toUInt64.toNat = n.toInt.toNat := by
  have hbound := n.toInt_lt
  have hcast : n.toUInt64.toNat = n.toBitVec.toNat := rfl
  have hint : n.toInt = n.toBitVec.toInt := rfl
  rw [hint, BitVec.toInt_eq_toNat_cond] at h hbound
  rw [hcast, hint, BitVec.toInt_eq_toNat_cond]
  have hsize := n.toBitVec.isLt
  split at h
  · simp_all
  · omega

/-- A number of 16 bits becomes the character of this code, if there is one. -/
theorem charOfInt64_of_holds (h : Kind.char.Holds n.toInt) :
    charOfInt64 n = if IsSurrogate n.toInt then replacementChar else Char.ofNat n.toInt.toNat := by
  obtain ⟨hlow, hhigh⟩ := h
  simp only [Kind.lowest, Kind.highest] at hlow hhigh
  have hcode : n.toUInt64.toUInt16.toNat = n.toInt.toNat := by
    rw [UInt64.toNat_toUInt16, toNat_toUInt64 hlow]
    omega
  have hvalid : n.toInt.toNat.isValidChar ↔ ¬ IsSurrogate n.toInt := by
    unfold Nat.isValidChar IsSurrogate
    omega
  unfold charOfInt64
  simp only [hcode, hvalid]
  split <;> simp_all [replacementChar]

theorem toNat_charOfInt64 (h : Kind.char.Holds n.toInt) (hgap : ¬ IsSurrogate n.toInt) :
    Int64.ofNat (charOfInt64 n).toNat = n := by
  rw [charOfInt64_of_holds h, if_neg hgap]
  obtain ⟨hlow, hhigh⟩ := h
  simp only [Kind.lowest, Kind.highest] at hlow hhigh
  have hvalid : n.toInt.toNat.isValidChar := by
    unfold IsSurrogate at hgap
    omega
  rw [Char.toNat_ofNat, if_pos hvalid]
  apply Int64.toInt_inj.1
  rw [Int64.toInt_ofNat_of_lt (by omega)]
  omega

/-- What a conversion to an integral kind makes of a number. -/
def Keeps (n : Int64) (target : Kind) (q : Primitive) : Prop :=
  if target = .char ∧ IsSurrogate n.toInt then q = .char replacementChar else q.toInt64? = some n

theorem keeps_ofInt64? (ht : target.isIntegral = true) (hn : target.Holds n.toInt)
    (h : ofInt64? n target = some q) : Keeps n target q := by
  obtain ⟨hlow, hhigh⟩ := id hn
  cases target with
  | char =>
    cases h
    unfold Keeps
    split
    · next hgap => rw [charOfInt64_of_holds hn, if_pos hgap.2]
    · next hgap => exact congrArg some (toNat_charOfInt64 hn fun h => hgap ⟨rfl, h⟩)
  | byte =>
    cases h
    refine (if_neg (by simp)).mpr (congrArg some (Int64.toInt_inj.1 ?_))
    simp only [Kind.lowest, Kind.highest] at hlow hhigh
    rw [Int8.toInt_toInt64, Int64.toInt_toInt8, Int.bmod_eq_of_le] <;> omega
  | short =>
    cases h
    refine (if_neg (by simp)).mpr (congrArg some (Int64.toInt_inj.1 ?_))
    simp only [Kind.lowest, Kind.highest] at hlow hhigh
    rw [Int16.toInt_toInt64, Int64.toInt_toInt16, Int.bmod_eq_of_le] <;> omega
  | int =>
    cases h
    refine (if_neg (by simp)).mpr (congrArg some (Int64.toInt_inj.1 ?_))
    simp only [Kind.lowest, Kind.highest] at hlow hhigh
    rw [Int32.toInt_toInt64, Int64.toInt_toInt32, Int.bmod_eq_of_le] <;> omega
  | long =>
    cases h
    exact (if_neg (by simp)).mpr rfl
  | boolean | float | double | void | null => cases ht

theorem keeps_convert? (hp : p.toInt64? = some n) (ht : target.isIntegral = true)
    (hn : p.kind = target ∨ target.Holds n.toInt) (h : p.convert? target = some q) : Keeps n target q := by
  unfold convert? at h
  split at h
  · next hk =>
      -- a character has no code in the gap
      cases h
      unfold Keeps
      split
      · next hgap => exact absurd hgap.2 (not_isSurrogate hp (hk.trans hgap.1))
      · exact hp
  · next hk =>
      have hholds := hn.resolve_left hk
      cases p <;> cases hp <;> exact keeps_ofInt64? ht hholds h

theorem isSome_convert? (hp : p.toInt64? = some n) (ht : target.isIntegral = true) :
    ∃ q, p.convert? target = some q := by
  unfold convert?
  split
  · exact ⟨p, rfl⟩
  · cases p <;> cases hp <;> cases target <;> cases ht <;> exact ⟨_, rfl⟩

/-! ## Assignment -/

theorem widen?_eq_some_iff (hp : p.toInt64? = some n) (ht : target.isIntegral = true) :
    p.widen? target = some q ↔ p.kind.Within target ∧ p.convert? target = some q := by
  rw [← Kind.widensTo_iff_within (isIntegral_kind hp) ht]
  unfold widen?
  split <;> simp_all

theorem fits_iff (target : Kind) (n : Int64) : fits n target = true ↔ target.IsSmall ∧ target.Holds n.toInt := by
  cases target <;> simp [fits, Kind.IsSmall, Kind.Holds, Kind.lowest, Kind.highest]

theorem narrow?_eq_some_iff (hp : p.toInt64? = some n) :
    p.narrow? target = some q ↔
      (p.kind ≠ .long ∧ target.IsSmall ∧ target.Holds n.toInt) ∧ p.convert? target = some q := by
  rw [← fits_iff]
  unfold narrow?
  cases p <;> simp_all [kind, toInt64?]

/-- When an assignment of a whole number to an integral kind goes through, and with what. -/
theorem assign_eq_ok_iff (hp : p.toInt64? = some n) (ht : target.isIntegral = true) :
    p.assign target = .ok q ↔
      (p.kind.Within target ∨ p.kind ≠ .long ∧ target.IsSmall ∧ target.Holds n.toInt) ∧
        p.convert? target = some q := by
  rw [or_and_right, ← widen?_eq_some_iff hp ht, ← narrow?_eq_some_iff hp]
  unfold assign
  cases hw : p.widen? target with
  | some r =>
    have hconvert := ((widen?_eq_some_iff hp ht).1 hw).2
    simp only [Except.ok.injEq, Option.some.injEq]
    refine ⟨.inl, fun h => h.elim id fun hn => ?_⟩
    exact Option.some.inj (hconvert.symm.trans ((narrow?_eq_some_iff hp).1 hn).2)
  | none =>
    cases hn : p.narrow? target with
    | some r => simp
    | none => simp

end Primitive

/-- **Assignment keeps whole numbers.** A whole number of any integral kind is assigned to an integral kind exactly
if this is its own kind or a wider one, or the number is no long and lies between the bounds of a kind of at most
16 bits. The result is of the kind that was asked for and is the same number; only a code that no character has
becomes the replacement character. -/
theorem assignment_keeps_number {p : Primitive} {target : Kind} (hp : p.kind.isIntegral = true)
    (ht : target.isIntegral = true) :
    ∃ n, p.toInt64? = some n ∧ ((∃ q, p.assign target = .ok q) ↔ target = p.kind ∨ p.kind.Within target ∨
          p.kind ≠ .long ∧ (target = .byte ∨ target = .short ∨ target = .char) ∧ target.Holds n.toInt) ∧
      ∀ q, p.assign target = .ok q → q.kind = target ∧
        if target = .char ∧ IsSurrogate n.toInt then q = .char replacementChar else q.toInt64? = some n := by
  obtain ⟨n, hn⟩ := Primitive.exists_toInt64? hp
  refine ⟨n, hn, ⟨?_, ?_⟩, fun q hq => ⟨Primitive.kind_assign hq, ?_⟩⟩
  · rintro ⟨q, hq⟩
    exact .inr ((Primitive.assign_eq_ok_iff hn ht).1 hq).1
  · intro h
    obtain ⟨q, hq⟩ := Primitive.isSome_convert? hn ht
    have hown : target = p.kind → p.kind.Within target := fun h => h ▸ ⟨le_rfl, le_rfl⟩
    exact ⟨q, (Primitive.assign_eq_ok_iff hn ht).2 ⟨h.elim (fun h => .inl (hown h)) id, hq⟩⟩
  · obtain ⟨hreach, hconvert⟩ := (Primitive.assign_eq_ok_iff hn ht).1 hq
    refine Primitive.keeps_convert? hn ht ?_ hconvert
    by_cases hk : p.kind = target
    · exact .inl hk
    · exact .inr (hreach.elim (Primitive.holds_of_wider hn ht hk) fun h => h.2.2)

/-- The greatest number of 16 bits is assigned to a character. -/
theorem last_code_assigned :
    (Primitive.int 65535).kind.isIntegral = true ∧ Kind.char.isIntegral = true ∧
      ∃ q, (Primitive.int 65535).assign .char = .ok q ∧ q.kind = .char ∧ q.toInt64? = some 65535 := by
  obtain ⟨n, hn, hassigned, hkept⟩ := @assignment_keeps_number (.int 65535) .char rfl rfl
  cases hn
  obtain ⟨q, hq⟩ := hassigned.2 (.inr (.inr (by decide)))
  obtain ⟨hkind, hnumber⟩ := hkept q hq
  exact ⟨rfl, rfl, q, hq, hkind, (if_neg (by decide)).mp hnumber⟩

/-- A code that no character has is assigned to a character, and the number is not kept. -/
theorem gap_code_not_kept :
    ∃ q, (Primitive.int 0xD800).assign .char = .ok q ∧ (Primitive.int 0xD800).toInt64? = some 55296 ∧
      q.toInt64? = some 65533 :=
  ⟨.char replacementChar, rfl, rfl, rfl⟩

end HostScript
