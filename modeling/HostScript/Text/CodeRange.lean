/-!
# Code point ranges

A class of characters given by a standard is a table of closed ranges of code points. The class of
blank characters is small enough to stand here.
-/

set_option autoImplicit false

namespace HostScript.Text

/-- Closed ranges of code points. -/
abbrev CodeRanges := List (Nat × Nat)

/-- Ranges by their lengths: the gap before a range and the range itself, in turn, from a code point on. -/
def CodeRanges.ofLengths (lengths : List Nat) (start : Nat := 0) : CodeRanges :=
  match lengths with
  | gap :: length :: rest =>
    (start + gap, start + gap + length - 1) :: ofLengths rest (start + gap + length)
  | _ => []

/-- Whether a character lies in one of the ranges. -/
def CodeRanges.contains (ranges : CodeRanges) (c : Char) : Bool :=
  ranges.any fun r => decide (r.1 ≤ c.toNat) && decide (c.toNat ≤ r.2)

/-- The code points of the Unicode property White_Space. -/
def blankRanges : CodeRanges := [
  (0x9, 0xD), (0x20, 0x20), (0x85, 0x85), (0xA0, 0xA0), (0x1680, 0x1680), (0x2000, 0x200A),
  (0x2028, 0x2029), (0x202F, 0x202F), (0x205F, 0x205F), (0x3000, 0x3000)]

/-- Characters that separate words and say nothing themselves. -/
def isBlank (c : Char) : Bool :=
  blankRanges.contains c

/-- The text without the blanks at its end. -/
def trimEnd (cs : List Char) : List Char :=
  (cs.reverse.dropWhile isBlank).reverse

/-- The text without the blanks at either end. -/
def trim (cs : List Char) : List Char :=
  trimEnd (cs.dropWhile isBlank)

end HostScript.Text
