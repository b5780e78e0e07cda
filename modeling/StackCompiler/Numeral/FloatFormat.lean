/-!
# Binary floating point

A format of binary floating point numbers has `fractionBits` stored bits of significand and
`exponentBits` bits of exponent. Every finite number of a format is a whole number of *units*, a
unit being its least positive number, so a magnitude is a natural number and rounding is a division
of natural numbers.

* `FloatFormat.round`: the magnitude nearest to a fraction, a tie going to the even neighbour.
* `FloatFormat.bits` and `FloatFormat.units`: a magnitude and its bit pattern.
* `FloatFormat.convert`: the bit pattern of a number in another format.
-/

namespace StackCompiler

/-- A quotient rounded to the nearest whole number, a half to the even neighbour. -/
def roundHalfEven (num den : Nat) : Nat :=
  let quotient := num / den
  let twice := 2 * (num % den)
  if twice < den then quotient
  else if den < twice then quotient + 1
  else quotient + quotient % 2

/-- A format of binary floating point numbers. -/
structure FloatFormat where
  /-- Stored bits of the significand. -/
  fractionBits : Nat
  /-- Bits of the exponent. -/
  exponentBits : Nat
  deriving DecidableEq, Repr

namespace FloatFormat

/-- The 32-bit format. -/
def single : FloatFormat := ⟨23, 8⟩

/-- The 64-bit format. -/
def double : FloatFormat := ⟨52, 11⟩

/-- The unit of a format is two to the minus `unitExponent`. -/
def unitExponent (f : FloatFormat) : Nat := Nat.pow 2 (f.exponentBits - 1) - 2 + f.fractionBits

/-- Units per one. -/
def one (f : FloatFormat) : Nat := Nat.pow 2 f.unitExponent

/-- **The first magnitude past the finite ones**, in units. It stands for infinity. -/
def infinity (f : FloatFormat) : Nat := Nat.pow 2 (Nat.pow 2 f.exponentBits - 2 + f.fractionBits)

/-- **The magnitude nearest to `num / den` units.** A significand has one bit more than its stored
bits, so a larger number keeps only that many leading bits. -/
def round (f : FloatFormat) (num den : Nat) : Nat :=
  let step := Nat.pow 2 ((num / den).log2 - f.fractionBits)
  min (roundHalfEven num (den * step) * step) f.infinity

/-- **The bit pattern of a magnitude**, without sign: the exponent field above the fraction. -/
def bits (f : FloatFormat) (units : Nat) : Nat :=
  let exponent := units.log2 - f.fractionBits
  exponent * Nat.pow 2 f.fractionBits + units / Nat.pow 2 exponent

/-- **The magnitude of a bit pattern without sign.** -/
def units (f : FloatFormat) (bits : Nat) : Nat :=
  let exponent := bits / Nat.pow 2 f.fractionBits
  let fraction := bits % Nat.pow 2 f.fractionBits
  if exponent = 0 then fraction
  else (Nat.pow 2 f.fractionBits + fraction) * Nat.pow 2 (exponent - 1)

/-- The sign bit of a bit pattern. -/
def signBit (f : FloatFormat) : Nat := Nat.pow 2 (f.fractionBits + f.exponentBits)

/-- Does the bit pattern without sign stand for a finite number? -/
def isFinite (f : FloatFormat) (bits : Nat) : Bool := bits % f.signBit < f.bits f.infinity

/-- **A bit pattern of one format as a bit pattern of a narrower one.** Numbers are rounded. A value
that is not a number keeps its sign and leading fraction bits and becomes quiet. -/
def convert (wide narrow : FloatFormat) (pattern : Nat) : Nat :=
  let magnitude := pattern % wide.signBit
  let sign := pattern / wide.signBit * narrow.signBit
  let infinite := wide.bits wide.infinity
  if infinite < magnitude then
    let fraction := (magnitude - infinite) / Nat.pow 2 (wide.fractionBits - narrow.fractionBits)
    let quiet := Nat.pow 2 (narrow.fractionBits - 1)
    sign + narrow.bits narrow.infinity + (quiet + fraction % quiet)
  else if magnitude = infinite then sign + narrow.bits narrow.infinity
  else sign + narrow.bits (narrow.round (wide.units magnitude * narrow.one) wide.one)

/-- The bit pattern of a number of a narrower format in a wider one, where nothing is rounded. -/
def widen (narrow wide : FloatFormat) (magnitude : Nat) : Nat :=
  wide.bits (narrow.units magnitude * wide.one / narrow.one)

end FloatFormat

end StackCompiler
