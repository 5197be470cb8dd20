import HostScript.Proofs.AssignmentConversion

/-!
# Arithmetic of whole numbers

The result of an operator on whole numbers is the exact number, reduced to the bits of the kind in which the operands
meet: a long if one of them is a long, and an int otherwise (`integral_arithmetic_wraps`). Casts, negatives and the
steps of counters are reduced in the same way. The exact numbers are those of `BinaryOp.exactly?`, `BinaryOp.bits?`
and `BinaryOp.order?`, which know nothing of kinds. A word is told by its kind and its number (`Primitive.IsWord`).
-/

set_option autoImplicit false

namespace HostScript

/-- How many bits the numbers of a kind have. -/
def Kind.bits : Kind → Nat
  | .byte => 8
  | .char | .short => 16
  | .int => 32
  | .long => 64
  | _ => 0

/-- The kinds of words: all integral kinds but that of characters. -/
def Kind.IsWordKind (k : Kind) : Prop := k = .byte ∨ k = .short ∨ k = .int ∨ k = .long

theorem Kind.within_int {k : Kind} (hk : k.isIntegral = true) (hne : k ≠ .long) : k.Within .int := by
  cases k <;> cases hk <;> first | decide | exact absurd rfl hne

namespace BinaryOp

/-- The exact result of an arithmetic operator. Quotients are cut toward zero, remainders have the sign of the
dividend, and nothing can be divided by zero. -/
def exactly? (op : BinaryOp) (a b : Int) : Option Int :=
  match op with
  | .add => some (a + b)
  | .sub => some (a - b)
  | .mul => some (a * b)
  | .div => if b = 0 then none else some (a.tdiv b)
  | .mod => if b = 0 then none else some (a.tmod b)
  | _ => none

/-- The result of a bitwise operator. -/
def bits? {w : Nat} (op : BinaryOp) (x y : BitVec w) : Option (BitVec w) :=
  match op with
  | .bitAnd => some (x &&& y)
  | .bitOr => some (x ||| y)
  | .bitXor => some (x ^^^ y)
  | _ => none

/-- The answer of a comparison. -/
def order? (op : BinaryOp) (a b : Int) : Option Bool :=
  match op with
  | .equal => some (decide (a = b))
  | .notEqual => some (decide (a ≠ b))
  | .less => some (decide (a < b))
  | .lessEqual => some (decide (a ≤ b))
  | .greater => some (decide (b < a))
  | .greaterEqual => some (decide (b ≤ a))
  | _ => none

end BinaryOp

namespace Primitive

variable {p q r : Primitive} {a b : Int64} {k : Kind} {n : Int} {op : BinaryOp} {answer : Bool}
  {x y : Int32}

/-- A value of a kind that is a number, reduced to the bits of the kind. -/
def IsWord (p : Primitive) (k : Kind) (n : Int) : Prop :=
  p.kind = k ∧ ∃ w, p.toInt64? = some w ∧ w.toInt = n.bmod (2 ^ k.bits)

theorem isWord_int (h : x.toInt = n.bmod (2 ^ 32)) : (Primitive.int x).IsWord .int n :=
  ⟨rfl, _, rfl, (Int32.toInt_toInt64 x).trans h⟩

theorem isWord_long (h : a.toInt = n.bmod (2 ^ 64)) : (Primitive.long a).IsWord .long n := ⟨rfl, _, rfl, h⟩

/-! ## Where operands meet -/

theorem promote_integral (hp : p.toInt64? = some a) (hq : q.toInt64? = some b) :
    p.kind.promote q.kind = if p.kind = .long ∨ q.kind = .long then .long else .int := by
  cases p <;> cases hp <;> cases q <;> cases hq <;> rfl

theorem convert?_long (hp : p.toInt64? = some a) : p.convert? .long = some (.long a) := by
  cases p <;> cases hp <;> rfl

/-- What is no long is the same number as an int. -/
theorem convert?_int (hp : p.toInt64? = some a) (hk : p.kind ≠ .long) :
    ∃ x : Int32, p.convert? .int = some (.int x) ∧ x.toInt = a.toInt := by
  have hholds : p.kind = .int ∨ Kind.int.Holds a.toInt := by
    by_cases hint : p.kind = .int
    · exact .inl hint
    · exact .inr (holds_of_wider hp rfl hint (Kind.within_int (isIntegral_kind hp) hk))
  have hintegral : Kind.int.isIntegral = true := rfl
  obtain ⟨r, hr⟩ := isSome_convert? hp hintegral
  have hkeeps : r.toInt64? = some a := keeps_convert? hp rfl hholds hr
  have hkind : r.kind = .int := kind_convert? hr
  cases r with
  | int x =>
    cases hkeeps
    exact ⟨x, hr, (Int32.toInt_toInt64 x).symm⟩
  | _ => cases hkind

/-- Two whole numbers meet as ints, or as longs if one of them is a long. -/
theorem binary_meets (hp : p.toInt64? = some a) (hq : q.toInt64? = some b) :
    (p.kind.promote q.kind = .int ∧ ∃ x y : Int32, x.toInt = a.toInt ∧ y.toInt = b.toInt ∧
      ∀ op, op ≠ .and ∧ op ≠ .or → binary op p q = binary op (.int x) (.int y)) ∨
    (p.kind.promote q.kind = .long ∧
      ∀ op, op ≠ .and ∧ op ≠ .or → binary op p q = binary op (.long a) (.long b)) := by
  have hnumeric : ∀ op, binary op p q = numeric op p q := by
    intro op
    cases p <;> cases hp <;> cases q <;> cases hq <;> rfl
  rw [promote_integral hp hq]
  by_cases hlong : p.kind = .long ∨ q.kind = .long
  · rw [if_pos hlong]
    refine .inr ⟨rfl, fun op hop => ?_⟩
    rw [hnumeric op]
    unfold numeric
    rw [promote_integral hp hq, if_pos hlong]
    dsimp only
    rw [convert?_long hp, convert?_long hq]
    cases op <;> first | rfl | exact absurd rfl hop.1 | exact absurd rfl hop.2
  · rw [if_neg hlong]
    obtain ⟨hpl, hql⟩ := not_or.1 hlong
    obtain ⟨x, hx, hxa⟩ := convert?_int hp hpl
    obtain ⟨y, hy, hyb⟩ := convert?_int hq hql
    refine .inl ⟨rfl, x, y, hxa, hyb, fun op hop => ?_⟩
    rw [hnumeric op]
    unfold numeric
    rw [promote_integral hp hq, if_neg hlong]
    dsimp only
    rw [hx, hy]
    cases op <;> first | rfl | exact absurd rfl hop.1 | exact absurd rfl hop.2

/-- A number is a number of the kind in which it meets another. -/
theorem bmod_promote (hp : p.toInt64? = some a) (hq : q.toInt64? = some b) :
    a.toInt.bmod (2 ^ (p.kind.promote q.kind).bits) = a.toInt := by
  rcases binary_meets hp hq with ⟨hk, x, -, hx, -⟩ | ⟨hk, -⟩
  · rw [hk, ← hx]
    exact x.toInt_bmod
  · rw [hk]
    exact a.toInt_bmod

/-! ## Operators -/

theorem binary_of_arithInt {z : Except Error Int32} (h : arithInt op x y = some z) :
    binary op (.int x) (.int y) = z.map .int := by
  cases op <;> cases h <;> rfl

theorem binary_of_arithLong {z : Except Error Int64} (h : arithLong op a b = some z) :
    binary op (.long a) (.long b) = z.map .long := by
  cases op <;> cases h <;> rfl

theorem arithInt_of_exact (h : op.exactly? x.toInt y.toInt = some n) :
    ∃ z : Int32, arithInt op x y = some (.ok z) ∧ z.toInt = n.bmod (2 ^ 32) := by
  have hzero : y.toInt ≠ 0 → y ≠ 0 := fun hy hyz => hy (by rw [hyz]; rfl)
  cases op with
  | add => cases h; exact ⟨x + y, rfl, x.toInt_add y⟩
  | sub => cases h; exact ⟨x - y, rfl, x.toInt_sub y⟩
  | mul => cases h; exact ⟨x * y, rfl, x.toInt_mul y⟩
  | div =>
    obtain ⟨hy, h⟩ := Option.ite_none_left_eq_some.1 h
    cases h
    exact ⟨x / y, congrArg some (if_neg (hzero hy)), x.toInt_div y⟩
  | mod =>
    obtain ⟨hy, h⟩ := Option.ite_none_left_eq_some.1 h
    cases h
    refine ⟨x % y, congrArg some (if_neg (hzero hy)), ?_⟩
    rw [← x.toInt_mod y]
    exact (x % y).toInt_bmod.symm
  | _ => cases h

theorem arithLong_of_exact (h : op.exactly? a.toInt b.toInt = some n) :
    ∃ z : Int64, arithLong op a b = some (.ok z) ∧ z.toInt = n.bmod (2 ^ 64) := by
  have hzero : b.toInt ≠ 0 → b ≠ 0 := fun hb hbz => hb (by rw [hbz]; rfl)
  cases op with
  | add => cases h; exact ⟨a + b, rfl, a.toInt_add b⟩
  | sub => cases h; exact ⟨a - b, rfl, a.toInt_sub b⟩
  | mul => cases h; exact ⟨a * b, rfl, a.toInt_mul b⟩
  | div =>
    obtain ⟨hb, h⟩ := Option.ite_none_left_eq_some.1 h
    cases h
    exact ⟨a / b, congrArg some (if_neg (hzero hb)), a.toInt_div b⟩
  | mod =>
    obtain ⟨hb, h⟩ := Option.ite_none_left_eq_some.1 h
    cases h
    refine ⟨a % b, congrArg some (if_neg (hzero hb)), ?_⟩
    rw [← a.toInt_mod b]
    exact (a % b).toInt_bmod.symm
  | _ => cases h

/-- An operator with an exact result gives it in the kind in which the operands meet. -/
theorem binary_of_exact (hp : p.toInt64? = some a) (hq : q.toInt64? = some b)
    (h : op.exactly? a.toInt b.toInt = some n) :
    ∃ r, binary op p q = .ok r ∧ r.IsWord (p.kind.promote q.kind) n := by
  have hop : op ≠ .and ∧ op ≠ .or := by constructor <;> rintro rfl <;> cases h
  rcases binary_meets hp hq with ⟨hk, x, y, hx, hy, hmeet⟩ | ⟨hk, hmeet⟩
  · rw [← hx, ← hy] at h
    obtain ⟨z, hz, hzn⟩ := arithInt_of_exact h
    exact ⟨.int z, (hmeet op hop).trans (binary_of_arithInt hz), hk ▸ isWord_int hzn⟩
  · obtain ⟨z, hz, hzn⟩ := arithLong_of_exact h
    exact ⟨.long z, (hmeet op hop).trans (binary_of_arithLong hz), hk ▸ isWord_long hzn⟩

/-- Bits that are combined in the wider kind are the same bits. -/
theorem arithInt_of_bits {w : BitVec 32} (h : op.bits? x.toBitVec y.toBitVec = some w) :
    ∃ z : Int32, arithInt op x y = some (.ok z) ∧ z.toBitVec = w := by
  cases op <;> cases h
  case bitAnd => exact ⟨_, rfl, by rw [Int64.toInt32_and, Int32.toInt32_toInt64, Int32.toInt32_toInt64]; rfl⟩
  case bitOr => exact ⟨_, rfl, by rw [Int64.toInt32_or, Int32.toInt32_toInt64, Int32.toInt32_toInt64]; rfl⟩
  case bitXor => exact ⟨_, rfl, by rw [Int64.toInt32_xor, Int32.toInt32_toInt64, Int32.toInt32_toInt64]; rfl⟩

theorem arithLong_of_bits {w : BitVec 64} (h : op.bits? a.toBitVec b.toBitVec = some w) :
    ∃ z : Int64, arithLong op a b = some (.ok z) ∧ z.toBitVec = w := by
  cases op <;> cases h <;> exact ⟨_, rfl, rfl⟩

/-- Bitwise operators work on the bits of both operands in the kind in which they meet. -/
theorem binary_of_bits (hp : p.toInt64? = some a) (hq : q.toInt64? = some b) (hk : p.kind.promote q.kind = k)
    {w : BitVec k.bits} (h : op.bits? (BitVec.ofInt k.bits a.toInt) (BitVec.ofInt k.bits b.toInt) = some w) :
    ∃ r, binary op p q = .ok r ∧ r.IsWord k w.toInt := by
  have hop : op ≠ .and ∧ op ≠ .or := by constructor <;> rintro rfl <;> cases h
  rcases binary_meets hp hq with ⟨hint, x, y, hx, hy, hmeet⟩ | ⟨hlong, hmeet⟩
  · obtain rfl : k = .int := hk.symm.trans hint
    rw [← hx, ← hy] at h
    have hbits : op.bits? x.toBitVec y.toBitVec = some w := by
      rwa [← BitVec.ofInt_toInt (x := x.toBitVec), ← BitVec.ofInt_toInt (x := y.toBitVec)]
    obtain ⟨z, hz, rfl⟩ := arithInt_of_bits hbits
    exact ⟨.int z, (hmeet op hop).trans (binary_of_arithInt hz), isWord_int z.toInt_bmod.symm⟩
  · obtain rfl : k = .long := hk.symm.trans hlong
    have hbits : op.bits? a.toBitVec b.toBitVec = some w := by
      rwa [← BitVec.ofInt_toInt (x := a.toBitVec), ← BitVec.ofInt_toInt (x := b.toBitVec)]
    obtain ⟨z, hz, rfl⟩ := arithLong_of_bits hbits
    exact ⟨.long z, (hmeet op hop).trans (binary_of_arithLong hz), isWord_long z.toInt_bmod.symm⟩

theorem relation_compare (op : BinaryOp) (m n : Int) : relation op (some (compare m n)) = op.order? m n := by
  rcases lt_trichotomy m n with h | rfl | h
  · rw [compare_lt_iff_lt.2 h]
    cases op <;> simp [relation, BinaryOp.order?, h, h.le, h.ne]
  · rw [compare_eq_iff_eq.2 rfl]
    cases op <;> simp [relation, BinaryOp.order?]
  · rw [compare_gt_iff_gt.2 h]
    cases op <;> simp [relation, BinaryOp.order?, h, h.le, h.ne']

theorem binary_int_of_order (h : op.order? x.toInt y.toInt = some answer) :
    binary op (.int x) (.int y) = .ok (.bool answer) := by
  rw [← relation_compare] at h
  cases op <;> cases h <;> rfl

theorem binary_long_of_order (h : op.order? a.toInt b.toInt = some answer) :
    binary op (.long a) (.long b) = .ok (.bool answer) := by
  rw [← relation_compare] at h
  cases op <;> cases h <;> rfl

/-- Comparisons are those of the numbers. -/
theorem binary_of_order (hp : p.toInt64? = some a) (hq : q.toInt64? = some b)
    (h : op.order? a.toInt b.toInt = some answer) : binary op p q = .ok (.bool answer) := by
  have hop : op ≠ .and ∧ op ≠ .or := by constructor <;> rintro rfl <;> cases h
  rcases binary_meets hp hq with ⟨-, x, y, hx, hy, hmeet⟩ | ⟨-, hmeet⟩
  · rw [← hx, ← hy] at h
    exact (hmeet op hop).trans (binary_int_of_order h)
  · exact (hmeet op hop).trans (binary_long_of_order h)

theorem binary_by_zero (hp : p.toInt64? = some a) (hq : q.toInt64? = some 0) (hop : op = .div ∨ op = .mod) :
    binary op p q = .error .divisionByZero := by
  have hother : op ≠ .and ∧ op ≠ .or := by rcases hop with rfl | rfl <;> decide
  rcases binary_meets hp hq with ⟨-, x, y, -, hy, hmeet⟩ | ⟨-, hmeet⟩
  · obtain rfl : y = 0 := Int32.toInt_inj.1 hy
    have harith : arithInt op x 0 = some (.error .divisionByZero) := by
      rcases hop with rfl | rfl <;> exact congrArg some (if_pos rfl)
    exact (hmeet op hother).trans (binary_of_arithInt harith)
  · have harith : arithLong op a 0 = some (.error .divisionByZero) := by
      rcases hop with rfl | rfl <;> exact congrArg some (if_pos rfl)
    exact (hmeet op hother).trans (binary_of_arithLong harith)

theorem binary_of_logical (hp : p.toInt64? = some a) (hop : op = .and ∨ op = .or) :
    binary op p q = .error (.operands op p.kind q.kind) := by
  rcases hop with rfl | rfl <;> cases p <;> cases hp <;> cases q <;> rfl

/-- Only a division by zero is refused as such. -/
theorem binary_eq_divisionByZero_iff (hp : p.toInt64? = some a) (hq : q.toInt64? = some b) :
    binary op p q = .error .divisionByZero ↔ (op = .div ∨ op = .mod) ∧ b = 0 := by
  refine ⟨fun h => ?_, fun ⟨hop, hb⟩ => binary_by_zero hp (hb ▸ hq) hop⟩
  have hexact : op.exactly? a.toInt b.toInt = none := by
    refine Option.eq_none_iff_forall_ne_some.2 fun n hn => ?_
    obtain ⟨r, hr, -⟩ := binary_of_exact hp hq hn
    cases hr.symm.trans h
  have hbits : op.bits? (BitVec.ofInt (p.kind.promote q.kind).bits a.toInt) (BitVec.ofInt _ b.toInt) = none := by
    refine Option.eq_none_iff_forall_ne_some.2 fun n hn => ?_
    obtain ⟨r, hr, -⟩ := binary_of_bits hp hq rfl hn
    cases hr.symm.trans h
  have horder : op.order? a.toInt b.toInt = none := by
    refine Option.eq_none_iff_forall_ne_some.2 fun n hn => ?_
    cases (binary_of_order hp hq hn).symm.trans h
  have hlogical : ¬ (op = .and ∨ op = .or) := fun hop => by
    cases (binary_of_logical hp hop).symm.trans h
  have hzero : b.toInt = 0 → b = 0 := fun hb => Int64.toInt_inj.1 hb
  cases op <;> simp_all [BinaryOp.exactly?, BinaryOp.bits?, BinaryOp.order?]

/-- A quotient times the divisor and the remainder together are the dividend, overflow or not. -/
theorem binary_div_mul_add_mod (hp : p.toInt64? = some a) (hq : q.toInt64? = some b) (hb : b ≠ 0) :
    ∃ d m r s, binary .div p q = .ok d ∧ binary .mul d q = .ok m ∧ binary .mod p q = .ok r ∧
      binary .add m r = .ok s ∧ s.kind = p.kind.promote q.kind ∧ s.toInt64? = some a := by
  have hzero : b.toInt ≠ 0 := fun h => hb (Int64.toInt_inj.1 h)
  obtain ⟨d, hd, hdk, dn, hdn, hdiv⟩ := binary_of_exact hp hq (show BinaryOp.exactly? .div _ _ = _ from if_neg hzero)
  obtain ⟨r, hr, hrk, rn, hrn, hmod⟩ := binary_of_exact hp hq (show BinaryOp.exactly? .mod _ _ = _ from if_neg hzero)
  obtain ⟨m, hm, hmk, mn, hmn, hmul⟩ := binary_of_exact hdn hq (show BinaryOp.exactly? .mul _ _ = _ from rfl)
  obtain ⟨s, hs, hsk, sn, hsn, hadd⟩ := binary_of_exact hmn hrn (show BinaryOp.exactly? .add _ _ = _ from rfl)
  -- from the quotient on, everything has the kind in which the operands meet
  have hkind : d.kind.promote q.kind = p.kind.promote q.kind := by
    rw [promote_integral hdn hq, hdk, promote_integral hp hq]
    split <;> simp_all
  rw [hkind] at hmk hmul
  have hkind' : m.kind.promote r.kind = p.kind.promote q.kind := by
    rw [promote_integral hmn hrn, hmk, hrk, promote_integral hp hq]
    split <;> simp
  rw [hkind'] at hsk hadd
  refine ⟨d, m, r, s, hd, hm, hr, hs, hsk, hsn.trans (congrArg some (Int64.toInt_inj.1 ?_))⟩
  rw [hadd, hmul, hmod, hdiv, Int.bmod_mul_bmod, Int.bmod_add_bmod, Int.add_bmod_bmod, Int.tdiv_mul_add_tmod,
    bmod_promote hp hq]

/-! ## Negatives, casts and steps -/

theorem negate_wraps (hp : p.toInt64? = some a) :
    ∃ r, p.negate = .ok r ∧ r.IsWord (if p.kind = .long then .long else .int) (-a.toInt) := by
  have hnumeric : p.kind.isNumeric = true := by cases p <;> cases hp <;> rfl
  have hpromote := promote_integral hp (q := .int 0) rfl
  unfold negate
  rw [if_pos hnumeric]
  by_cases hlong : p.kind = .long
  · rw [show p.kind.promote .int = .long from hpromote.trans (if_pos (.inl hlong)), convert?_long hp, if_pos hlong]
    exact ⟨_, rfl, isWord_long (Int64.toInt_neg a)⟩
  · obtain ⟨x, hx, hxa⟩ := convert?_int hp hlong
    rw [show p.kind.promote .int = .int from hpromote.trans (if_neg (not_or.2 ⟨hlong, nofun⟩)), hx, if_neg hlong, ← hxa]
    exact ⟨_, rfl, isWord_int (Int32.toInt_neg x)⟩

theorem cast_wraps (hp : p.toInt64? = some a) (hk : k.IsWordKind) :
    ∃ r, p.cast k = .ok r ∧ r.IsWord k a.toInt := by
  unfold cast
  by_cases hsame : p.kind = k
  · -- a word is in the range of its own kind
    rw [if_pos hsame]
    refine ⟨p, rfl, hsame, a, hp, ?_⟩
    have hchar : p.kind ≠ .char := by rintro h; rw [← hsame, h] at hk; simp [Kind.IsWordKind] at hk
    obtain ⟨hlow, hhigh⟩ := holds_of_toInt64? hp hchar
    rw [hsame] at hlow hhigh
    rcases hk with rfl | rfl | rfl | rfl <;> simp only [Kind.lowest, Kind.highest] at hlow hhigh <;>
      exact (Int.bmod_eq_of_le (by simp [Kind.bits]; omega) (by simp [Kind.bits]; omega)).symm
  · rw [if_neg hsame]
    have hnumeric : (p.kind.isNumeric && k.isNumeric) = true := by
      rcases hk with rfl | rfl | rfl | rfl <;> cases p <;> cases hp <;> rfl
    have hconvert : p.convert? k = ofInt64? a k := by
      unfold convert?
      rw [if_neg hsame]
      cases p <;> cases hp <;> rfl
    rw [if_pos hnumeric, hconvert]
    rcases hk with rfl | rfl | rfl | rfl
    · exact ⟨_, rfl, rfl, _, rfl, by rw [Int8.toInt_toInt64, Int64.toInt_toInt8]; rfl⟩
    · exact ⟨_, rfl, rfl, _, rfl, by rw [Int16.toInt_toInt64, Int64.toInt_toInt16]; rfl⟩
    · exact ⟨_, rfl, isWord_int (Int64.toInt_toInt32 a)⟩
    · exact ⟨_, rfl, isWord_long a.toInt_bmod.symm⟩

theorem step_wraps (hp : p.toInt64? = some a) (hk : p.kind.IsWordKind) (delta : Int32) :
    ∃ r, p.step delta = .ok r ∧ r.IsWord p.kind (a.toInt + delta.toInt) := by
  have hdelta : (Primitive.int delta).toInt64? = some delta.toInt64 := rfl
  obtain ⟨s, hs, -, n, hn, hsum⟩ := binary_of_exact hp hdelta (show BinaryOp.exactly? .add _ _ = _ from rfl)
  obtain ⟨r, hr, hrk, m, hm, hcast⟩ := cast_wraps hn hk
  unfold step
  rw [hs]
  dsimp only
  rw [hr]
  refine ⟨r, rfl, hrk, m, hm, ?_⟩
  have hbits : 2 ^ p.kind.bits ∣ 2 ^ (p.kind.promote (Primitive.int delta).kind).bits := by
    refine Nat.pow_dvd_pow 2 ?_
    rcases hk with hk | hk | hk | hk <;> rw [hk] <;> exact Nat.le_of_ble_eq_true rfl
  rw [hcast, hsum, Int.bmod_bmod_of_dvd hbits, Int32.toInt_toInt64]

end Primitive

/-- **Arithmetic of whole numbers is arithmetic of words.** Two whole numbers of any kinds meet as longs if one of
them is a long, and as ints otherwise. The arithmetic operators give the exact result, reduced to the bits of that
kind, and fail exactly for a division by zero; quotient and remainder make up the dividend, even where the quotient
overflows. Bitwise operators work on the bits in that kind, and comparisons are those of the numbers. Negatives,
casts and steps are exact results reduced to the bits of their kinds. -/
theorem integral_arithmetic_wraps {p q : Primitive} (hp : p.kind.isIntegral = true) (hq : q.kind.isIntegral = true) :
    ∃ (a b : Int64) (k : Kind), p.toInt64? = some a ∧ q.toInt64? = some b ∧
      k = (if p.kind = .long ∨ q.kind = .long then .long else .int) ∧
      (∀ op n, op.exactly? a.toInt b.toInt = some n → ∃ r, p.binary op q = .ok r ∧ r.IsWord k n) ∧
      (∀ op, p.binary op q = .error .divisionByZero ↔ (op = .div ∨ op = .mod) ∧ b = 0) ∧
      Primitive.Error.divisionByZero.message = "/ by zero" ∧
      (b ≠ 0 → ∃ d m r s, p.binary .div q = .ok d ∧ d.binary .mul q = .ok m ∧ p.binary .mod q = .ok r ∧
        m.binary .add r = .ok s ∧ s.kind = k ∧ s.toInt64? = some a) ∧
      (∀ op w, op.bits? (BitVec.ofInt k.bits a.toInt) (BitVec.ofInt k.bits b.toInt) = some w →
        ∃ r, p.binary op q = .ok r ∧ r.IsWord k w.toInt) ∧
      (∀ op answer, op.order? a.toInt b.toInt = some answer → p.binary op q = .ok (.bool answer)) ∧
      (∃ r, p.negate = .ok r ∧ r.IsWord (if p.kind = .long then .long else .int) (-a.toInt)) ∧
      (∀ target : Kind, target.IsWordKind → ∃ r, p.cast target = .ok r ∧ r.IsWord target a.toInt) ∧
      (p.kind.IsWordKind → ∀ delta : Int32, delta = 1 ∨ delta = -1 →
        ∃ r, p.step delta = .ok r ∧ r.IsWord p.kind (a.toInt + delta.toInt)) := by
  obtain ⟨a, ha⟩ := Primitive.exists_toInt64? hp
  obtain ⟨b, hb⟩ := Primitive.exists_toInt64? hq
  refine ⟨a, b, _, ha, hb, Primitive.promote_integral ha hb, ?_, ?_, rfl, ?_, ?_, ?_, ?_, ?_, ?_⟩
  · exact fun op n h => Primitive.binary_of_exact ha hb h
  · exact fun op => Primitive.binary_eq_divisionByZero_iff ha hb
  · exact Primitive.binary_div_mul_add_mod ha hb
  · exact fun op w h => Primitive.binary_of_bits ha hb rfl h
  · exact fun op answer h => Primitive.binary_of_order ha hb h
  · exact Primitive.negate_wraps ha
  · exact fun target ht => Primitive.cast_wraps ha ht
  · exact fun hk delta _ => Primitive.step_wraps ha hk delta

/-- The least long divided by minus one is itself, and nothing is left over. -/
theorem least_long_by_minus_one :
    (Primitive.long Int64.minValue).kind.isIntegral = true ∧ (Primitive.byte (-1)).kind.isIntegral = true ∧
      ∃ d r, (Primitive.long Int64.minValue).binary .div (.byte (-1)) = .ok d ∧ d.IsWord .long (2 ^ 63) ∧
        d.toInt64? = some Int64.minValue ∧
        (Primitive.long Int64.minValue).binary .mod (.byte (-1)) = .ok r ∧ r.IsWord .long 0 := by
  obtain ⟨a, b, k, ha, hb, hk, hexact, -⟩ :=
    @integral_arithmetic_wraps (.long Int64.minValue) (.byte (-1)) rfl rfl
  cases ha
  cases hb
  cases hk
  obtain ⟨d, hd, hdw⟩ := hexact .div (2 ^ 63) (by decide)
  obtain ⟨r, hr, hrw⟩ := hexact .mod 0 (by decide)
  refine ⟨rfl, rfl, d, r, hd, hdw, ?_, hr, hrw⟩
  obtain ⟨-, n, hn, hnumber⟩ := hdw
  exact hn.trans (congrArg some (Int64.toInt_inj.1 hnumber))

end HostScript
