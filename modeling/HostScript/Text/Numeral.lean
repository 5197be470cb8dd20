/-!
# Numerals

The value of a run of digits, the most significant digit first. Long runs are worth halving: the
value of the whole is put together from the values of the halves (`numeralHalved_eq`). Where only
values below a limit count, reading stops at the limit (`numeralBelow?_eq`).
-/

set_option autoImplicit false

namespace HostScript.Text

/-- The value of a decimal digit. -/
def decimalDigit (c : Char) : Nat :=
  c.toNat - '0'.toNat

/-- The value of a hexadecimal digit. -/
def hexDigit (c : Char) : Nat :=
  if c.isDigit then c.toNat - '0'.toNat
  else if 'a' ≤ c then c.toNat - 'a'.toNat + 10
  else c.toNat - 'A'.toNat + 10

/-- The value of digits after a part of value `start`. -/
def numeralFrom (base : Nat) (digit : Char → Nat) (start : Nat) (cs : List Char) : Nat :=
  cs.foldl (fun n c => base * n + digit c) start

/-- The value of a run of digits. -/
def numeral (base : Nat) (digit : Char → Nat) (cs : List Char) : Nat :=
  numeralFrom base digit 0 cs

/-- The value of a run of digits after a part of value `n`, if it stays below a limit. -/
def numeralBelowFrom? (base : Nat) (digit : Char → Nat) (limit : Nat) :
    Nat → List Char → Option Nat
  | n, [] => some n
  | n, c :: cs =>
    if base * n + digit c < limit then
      numeralBelowFrom? base digit limit (base * n + digit c) cs
    else none

/-- The value of a run of digits, if it is below a limit. -/
def numeralBelow? (base : Nat) (digit : Char → Nat) (limit : Nat) (cs : List Char) : Option Nat :=
  numeralBelowFrom? base digit limit 0 cs

/-- The value of a run of digits that is halved `depth` times. -/
def numeralHalved (base : Nat) (digit : Char → Nat) : Nat → List Char → Nat
  | 0, cs => numeral base digit cs
  | depth + 1, cs =>
    let half := cs.length / 2
    numeralHalved base digit depth (cs.take half) * Nat.pow base (cs.length - half)
      + numeralHalved base digit depth (cs.drop half)

/-- The value of a run of digits of any length, read in pieces of a few dozen digits. -/
def longNumeral (base : Nat) (digit : Char → Nat) (cs : List Char) : Nat :=
  numeralHalved base digit (cs.length / 32).log2 cs

theorem numeralFrom_eq (base : Nat) (digit : Char → Nat) (start : Nat) (cs : List Char) :
    numeralFrom base digit start cs = start * Nat.pow base cs.length + numeral base digit cs := by
  induction cs generalizing start with
  | nil => simp [numeralFrom, numeral]
  | cons c cs ih =>
    have hstart : numeralFrom base digit start (c :: cs)
        = numeralFrom base digit (base * start + digit c) cs := rfl
    have hzero : numeral base digit (c :: cs)
        = numeralFrom base digit (base * 0 + digit c) cs := rfl
    have hpow : Nat.pow base (cs.length + 1) = Nat.pow base cs.length * base := rfl
    rw [hstart, hzero, ih, ih (base * 0 + digit c), List.length_cons, hpow]
    grind

theorem numeral_append (base : Nat) (digit : Char → Nat) (a b : List Char) :
    numeral base digit (a ++ b) =
      numeral base digit a * Nat.pow base b.length + numeral base digit b := by
  have h : numeral base digit (a ++ b) = numeralFrom base digit (numeral base digit a) b := by
    simp [numeral, numeralFrom]
  rw [h, numeralFrom_eq]

/-- Halving does not change the value. -/
theorem numeralHalved_eq (base : Nat) (digit : Char → Nat) (depth : Nat) (cs : List Char) :
    numeralHalved base digit depth cs = numeral base digit cs := by
  induction depth generalizing cs with
  | zero => rfl
  | succ depth ih =>
    have h := numeral_append base digit (cs.take (cs.length / 2)) (cs.drop (cs.length / 2))
    rw [List.take_append_drop, List.length_drop] at h
    rw [h, numeralHalved, ih, ih]

theorem longNumeral_eq (base : Nat) (digit : Char → Nat) (cs : List Char) :
    longNumeral base digit cs = numeral base digit cs :=
  numeralHalved_eq base digit _ cs

theorem le_numeralFrom {base : Nat} (digit : Char → Nat) (hbase : 0 < base) (start : Nat)
    (cs : List Char) : start ≤ numeralFrom base digit start cs := by
  rw [numeralFrom_eq]
  have h : start * 1 ≤ start * Nat.pow base cs.length :=
    Nat.mul_le_mul_left start (Nat.pow_pos hbase)
  omega

theorem numeralBelowFrom?_eq {base : Nat} (digit : Char → Nat) (hbase : 0 < base) {limit n : Nat}
    (hn : n < limit) (cs : List Char) :
    numeralBelowFrom? base digit limit n cs =
      if numeralFrom base digit n cs < limit then some (numeralFrom base digit n cs) else none := by
  induction cs generalizing n with
  | nil => simp [numeralBelowFrom?, numeralFrom, hn]
  | cons c cs ih =>
    have hcons : numeralFrom base digit n (c :: cs)
        = numeralFrom base digit (base * n + digit c) cs := rfl
    rw [hcons, numeralBelowFrom?]
    split
    · next hstep => exact ih hstep
    · next hstep =>
      have hle := le_numeralFrom digit hbase (base * n + digit c) cs
      rw [if_neg (by omega)]

/-- Reading up to a limit finds the values below it, and no other. -/
theorem numeralBelow?_eq {base : Nat} (digit : Char → Nat) (hbase : 0 < base) {limit : Nat}
    (hlimit : 0 < limit) (cs : List Char) :
    numeralBelow? base digit limit cs =
      if numeral base digit cs < limit then some (numeral base digit cs) else none :=
  numeralBelowFrom?_eq digit hbase hlimit cs

end HostScript.Text
