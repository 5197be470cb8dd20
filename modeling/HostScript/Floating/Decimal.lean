import HostScript.Floating.Format
import HostScript.Text.Numeral

/-!
# Decimal texts of floating point numbers

Reading: a decimal text denotes a ratio, and the number read is the one nearest to it.

Writing: of the decimals that read back as a given number, the one with the fewest digits, and among
those the nearest. The interval of ratios that read back is known exactly from the significand, so
for one, two, ... digits it is enough to look at the two neighbours of the number on that decimal
grid.
-/

set_option autoImplicit false

namespace HostScript.Floating

open Text

/-- The unsigned decimal `digits * 10 ^ exponent`. -/
structure Decimal where
  digits : Nat
  exponent : Int
  deriving DecidableEq

/-- The decimal digits of a natural number. -/
def digitsText (n : Nat) : List Char :=
  Nat.toDigits 10 n

/-- The size of an exponent given by its digits. A size of `2 ^ 16` or more takes no further
digit. -/
def exponentSize (cs : List Char) : Nat :=
  cs.foldl (fun n c => if n < Nat.pow 2 16 then 10 * n + decimalDigit c else n) 0

/-- Reads the optional exponent that ends a decimal. -/
def readExponent : List Char → Option Int
  | [] => some 0
  | c :: cs =>
    if c == 'e' || c == 'E' then
      let (negative, ds) := match cs with
        | '-' :: ds => (true, ds)
        | '+' :: ds => (false, ds)
        | ds => (false, ds)
      if ds.isEmpty || !ds.all Char.isDigit then none
      else some (if negative then -(exponentSize ds : Int) else exponentSize ds)
    else none

/-- Reads digits, an optional fraction and an optional exponent; at least one digit stands before
the exponent. -/
def Decimal.read? (cs : List Char) : Option Decimal :=
  let whole := cs.takeWhile Char.isDigit
  let (fraction, rest) := match cs.dropWhile Char.isDigit with
    | '.' :: r => (r.takeWhile Char.isDigit, r.dropWhile Char.isDigit)
    | r => ([], r)
  if whole.isEmpty && fraction.isEmpty then none
  else
    (readExponent rest).map fun e =>
      ⟨longNumeral 10 decimalDigit (whole ++ fraction), e - fraction.length⟩

/-- The bits of the magnitude nearest to a decimal. Decimals far outside the range of every format
are settled by the place of their first digit, which a binary logarithm gives closely enough. -/
def Format.ofDecimal (f : Format) (d : Decimal) : Nat :=
  let place := d.exponent + d.digits.log2 * 30103 / 100000
  if d.digits = 0 ∨ place < -400 then 0
  else if 400 < place then f.infinity
  else f.nearest (d.digits * Nat.pow 10 d.exponent.toNat) (Nat.pow 10 (-d.exponent).toNat)

/-- The double nearest to a decimal. -/
def Decimal.toDouble (d : Decimal) : Float :=
  doubleOf false (Format.double.ofDecimal d)

/-- The single nearest to a decimal. -/
def Decimal.toSingle (d : Decimal) : Float32 :=
  singleOf false (Format.single.ofDecimal d)

/-- The sign and the characters of a signed text. -/
def splitSign : List Char → Bool × List Char
  | '-' :: cs => (true, cs)
  | '+' :: cs => (false, cs)
  | cs => (false, cs)

/-- Reads a signed number of a format, given as sign and magnitude bits: a decimal, an infinity, or
a text that says that there is no number. -/
def Format.read? (f : Format) (s : String) : Option (Bool × Nat) :=
  let (negative, cs) := splitSign s.toList
  match String.ofList (cs.map Char.toLower) with
  | "inf" | "infinity" => some (negative, f.infinity)
  | "nan" => some (negative, f.infinity + Nat.pow 2 (f.precision - 2))
  | _ => (Decimal.read? cs).map fun d => (negative, f.ofDecimal d)

/-- Reads a double. -/
def readDouble? (s : String) : Option Float :=
  (Format.double.read? s).map fun (negative, bits) => doubleOf negative bits

/-- Reads a single. -/
def readSingle? (s : String) : Option Float32 :=
  (Format.single.read? s).map fun (negative, bits) => singleOf negative bits

/-- The ratios that read back as one number, as multiples of a power of two: the number itself, the
ends of the interval, and whether the ends belong to it. -/
structure Interval where
  value : Nat
  low : Nat
  high : Nat
  power : Int
  closed : Bool

/-- The interval of a positive finite magnitude. The gap below a power of two is half as wide. -/
def Format.interval (f : Format) (bits : Nat) : Interval :=
  let (m, q) := f.decode bits
  let narrow := m = Nat.pow 2 (f.precision - 1) ∧ f.least < q
  ⟨4 * m, if narrow then 4 * m - 1 else 4 * m - 2, 4 * m + 2, q - 2, m % 2 = 0⟩

/-- The place of the first decimal digit of `n * 2 ^ power`, for a positive `n`. -/
def leadingPlace (n : Nat) (power : Int) : Int :=
  let atLeast (e : Int) : Bool :=
    Nat.pow 10 e.toNat * Nat.pow 2 (-power).toNat
      ≤ n * Nat.pow 2 power.toNat * Nat.pow 10 (-e).toNat
  let guess := ((n.log2 + power) * 30103).fdiv 100000
  if atLeast (guess + 1) then guess + 1 else if atLeast guess then guess else guess - 1

/-- A decimal of the interval on the grid of multiples of `10 ^ place`: one of the two neighbours
of the number, the nearer one if both belong to the interval, the upper one if they are equally
near. -/
def Interval.onGrid? (i : Interval) (place : Int) : Option Decimal :=
  let unit := Nat.pow 10 place.toNat * Nat.pow 2 (-i.power).toNat
  let scale := Nat.pow 10 (-place).toNat * Nat.pow 2 i.power.toNat
  let below := i.value * scale / unit
  let above := below + 1
  let inside (d : Nat) : Bool :=
    if i.closed then i.low * scale ≤ d * unit ∧ d * unit ≤ i.high * scale
    else i.low * scale < d * unit ∧ d * unit < i.high * scale
  let upper := i.value * scale * 2 ≥ (below + above) * unit
  if inside below && inside above then some ⟨if upper then above else below, place⟩
  else if inside below then some ⟨below, place⟩
  else if inside above then some ⟨above, place⟩
  else none

/-- Strips zeros from the end of the digits. -/
def Decimal.normalize : Nat → Decimal → Decimal
  | 0, d => d
  | n + 1, d =>
    if d.digits % 10 = 0 ∧ d.digits ≠ 0 then
      Decimal.normalize n ⟨d.digits / 10, d.exponent + 1⟩
    else d

/-- The shortest decimal that reads back as a positive finite magnitude. Seventeen digits always
suffice for the formats above. -/
def Format.shortest (f : Format) (bits : Nat) : Decimal :=
  let i := f.interval bits
  let top := leadingPlace i.value i.power
  let grids := (List.range 17).map fun (n : Nat) => top - (n : Int)
  ((grids.findSome? i.onGrid?).getD ⟨i.value, i.power⟩).normalize 17

/-- A decimal without an exponent: zeros fill the places up to the point. -/
def Decimal.positional (d : Decimal) : List Char :=
  let ds := digitsText d.digits
  if 0 ≤ d.exponent then ds ++ List.replicate d.exponent.toNat '0'
  else
    let places := (-d.exponent).toNat
    if places < ds.length then
      ds.take (ds.length - places) ++ '.' :: ds.drop (ds.length - places)
    else '0' :: '.' :: (List.replicate (places - ds.length) '0' ++ ds)

/-- Whether a double is a whole number below ten million in magnitude. -/
def isSmallWhole (x : Float) : Bool :=
  x.floor == x && x.abs < 10000000.0

/-- The text of a double: small whole numbers have one decimal place, every other finite number has
its shortest decimal, and no number has an exponent. -/
def doubleText (x : Float) : String :=
  let (negative, bits) := doubleParts x
  if Format.double.infinity < bits then "NaN"
  else if bits = Format.double.infinity then if negative then "-Infinity" else "Infinity"
  else
    let magnitude :=
      if isSmallWhole x then digitsText x.abs.toUInt64.toNat ++ ['.', '0']
      else (Format.double.shortest bits).positional
    String.ofList (if negative then '-' :: magnitude else magnitude)

end HostScript.Floating
