/-!
# Binary floating point formats

A finite number of a binary format is a whole significand times a power of two. This module takes
the bits of a magnitude apart, and finds the bits of the number nearest to a given ratio of natural
numbers, a half going to the even significand. All arithmetic is on natural numbers, so it is exact.
-/

set_option autoImplicit false

namespace HostScript.Floating

/-- A binary interchange format, without its sign bit. -/
structure Format where
  /-- How many bits a significand has, the leading one included. -/
  precision : Nat
  /-- The power of two that the least positive number is. -/
  least : Int
  /-- The bits of infinity; every finite magnitude has smaller bits. -/
  infinity : Nat

/-- The 64-bit format. -/
def Format.double : Format := ⟨53, -1074, 0x7FF0000000000000⟩

/-- The 32-bit format. -/
def Format.single : Format := ⟨24, -149, 0x7F800000⟩

/-- The significand and the power of two of a finite magnitude. -/
def Format.decode (f : Format) (bits : Nat) : Nat × Int :=
  let unit := Nat.pow 2 (f.precision - 1)
  if bits / unit = 0 then (bits, f.least)
  else (bits % unit + unit, f.least + (bits / unit - 1))

/-- The whole number nearest to a ratio; a half goes to the even neighbour. -/
def roundHalfEven (num den : Nat) : Nat :=
  let q := num / den
  let r := num % den
  if 2 * r < den then q
  else if den < 2 * r then q + 1
  else if q % 2 = 0 then q else q + 1

/-- `num / den` compared with `2 ^ e`: whether the ratio is smaller. -/
def ratioBelowPow (num den : Nat) (e : Int) : Bool :=
  num * Nat.pow 2 (-e).toNat < den * Nat.pow 2 e.toNat

/-- The bits of the magnitude nearest to the ratio `num / den`. -/
def Format.nearest (f : Format) (num den : Nat) : Nat :=
  if num = 0 then 0 else
    let guess : Int := num.log2 - den.log2
    let top := if ratioBelowPow num den guess then guess - 1 else guess
    let power := max (top - (f.precision - 1)) f.least
    let significand := roundHalfEven (num * Nat.pow 2 (-power).toNat) (den * Nat.pow 2 power.toNat)
    min ((power - f.least).toNat * Nat.pow 2 (f.precision - 1) + significand) f.infinity

/-- The bits of the remainder of two finite magnitudes, the second one positive: what is left of the
first after the second has been taken away as often as possible. The remainder is exact. -/
def Format.remainder (f : Format) (a b : Nat) : Nat :=
  let (m, p) := f.decode a
  let (n, q) := f.decode b
  let low := min p q
  let r := (m * Nat.pow 2 (p - low).toNat) % (n * Nat.pow 2 (q - low).toNat)
  f.nearest (r * Nat.pow 2 low.toNat) (Nat.pow 2 (-low).toNat)

/-- The sign bit and the bits of the magnitude of a double. -/
def doubleParts (x : Float) : Bool × Nat :=
  let bits := x.toBits.toNat
  (Nat.pow 2 63 ≤ bits, bits % Nat.pow 2 63)

/-- The double with the given sign and magnitude bits. -/
def doubleOf (negative : Bool) (magnitude : Nat) : Float :=
  Float.ofBits (UInt64.ofNat (if negative then magnitude + Nat.pow 2 63 else magnitude))

/-- The sign bit and the bits of the magnitude of a single. -/
def singleParts (x : Float32) : Bool × Nat :=
  let bits := x.toBits.toNat
  (Nat.pow 2 31 ≤ bits, bits % Nat.pow 2 31)

/-- The single with the given sign and magnitude bits. -/
def singleOf (negative : Bool) (magnitude : Nat) : Float32 :=
  Float32.ofBits (UInt32.ofNat (if negative then magnitude + Nat.pow 2 31 else magnitude))

/-- The magnitude bits of a remainder whose operands may be zero, infinite or no number. The result
is no number if the dividend is infinite or the divisor is zero; an infinite divisor leaves the
dividend as it is. -/
def Format.remainder? (f : Format) (a b : Nat) : Option Nat :=
  if f.infinity ≤ a ∨ f.infinity < b ∨ b = 0 then none
  else if b = f.infinity then some a
  else some (f.remainder a b)

/-- The remainder of two doubles, with the sign of the first. -/
def remDouble (x y : Float) : Float :=
  let (negative, a) := doubleParts x
  match Format.double.remainder? a (doubleParts y).2 with
  | some r => doubleOf negative r
  | none => 0.0 / 0.0

/-- The remainder of two singles, with the sign of the first. -/
def remSingle (x y : Float32) : Float32 :=
  let (negative, a) := singleParts x
  match Format.single.remainder? a (singleParts y).2 with
  | some r => singleOf negative r
  | none => 0.0 / 0.0

end HostScript.Floating
