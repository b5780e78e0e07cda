import StackCompiler.Numeral.Digits
import StackCompiler.Numeral.FloatFormat

/-!
# Magnitudes of written real numbers

A decimal numeral is rounded once, to the nearest number of the 64-bit format. A hexadecimal one is
built up digit by digit, each product and each sum being rounded, and then multiplied by a power of
two. A magnitude counts the units of the 64-bit format, and `FloatFormat.infinity` stands for
whatever is too large.

* `decimalMagnitude`: digits times a power of ten.
* `hexMagnitude`: hexadecimal digits before and after the point.
* `scaleByPowerOfTwo`: a magnitude times a power of two.
-/

namespace StackCompiler

open FloatFormat

/-- Decimal exponents past which a number of the 64-bit format is certainly too large, or certainly
nearer to zero than to the least positive number. -/
def decimalReach : Nat := 400

/-- **Digits times a power of ten, rounded once.** Exponents out of reach are settled first, so
that no power of ten is larger than the digits make it. -/
def decimalMagnitude (digits : List Char) (scale : Int) : Nat :=
  let significand := Base.decimal.ofDigits digits
  if significand = 0 then 0
  else if (decimalReach : Int) + digits.length ≤ scale then double.infinity
  else if scale + digits.length ≤ -(decimalReach : Int) then 0
  else if 0 ≤ scale then double.round (significand * Nat.pow 10 scale.toNat * double.one) 1
  else double.round (significand * double.one) (Nat.pow 10 (-scale).toNat)

/-- One more digit before the point: the magnitude times sixteen, then the digit added. -/
def appendHexDigit (magnitude digit : Nat) : Nat :=
  double.round (double.round (magnitude * 16) 1 + digit * double.one) 1

/-- One more digit after the point: the digit times its place value added, and the next place. -/
def addHexPlace (state : Nat × Nat) (digit : Nat) : Nat × Nat :=
  let (magnitude, place) := state
  (double.round (magnitude + double.round (digit * place) 1) 1, double.round place 16)

/-- **Hexadecimal digits before and after the point, rounded at every step.** -/
def hexMagnitude (integer fraction : List Char) : Nat :=
  let whole := (integer.filterMap digitValue).foldl appendHexDigit 0
  ((fraction.filterMap digitValue).foldl addHexPlace (whole, double.one / 16)).1

/-- **A magnitude times a power of two.** The power itself is a number of the 64-bit format: it is
infinite from `1024` on and zero from `-1024` down. -/
def scaleByPowerOfTwo (magnitude : Nat) (exponent : Int) : Nat :=
  if double.infinity ≤ magnitude ∨ 1024 ≤ exponent then double.infinity
  else if exponent ≤ -1024 then 0
  else if 0 ≤ exponent then double.round (magnitude * Nat.pow 2 exponent.toNat) 1
  else double.round magnitude (Nat.pow 2 (-exponent).toNat)

end StackCompiler
