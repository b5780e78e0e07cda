/-!
# Digits and bases

* `Base`: the four bases a numeral can be written in.
* `digitValue`: the value of a character as a digit.
* `ofDigits`: the number that a run of digits denotes.
-/

namespace StackCompiler

/-- The bases a numeral can be written in. -/
inductive Base where
  | binary
  | octal
  | decimal
  | hexadecimal
  deriving DecidableEq, Repr, Inhabited

/-- The base as a number. -/
def Base.radix : Base → Nat
  | .binary => 2
  | .octal => 8
  | .decimal => 10
  | .hexadecimal => 16

/-- The value of a character as a digit: `0 … 9`, then letters of either case from `10` on. -/
def digitValue (c : Char) : Option Nat :=
  if '0' ≤ c ∧ c ≤ '9' then some (c.toNat - '0'.toNat)
  else if 'a' ≤ c ∧ c ≤ 'z' then some (c.toNat - 'a'.toNat + 10)
  else if 'A' ≤ c ∧ c ≤ 'Z' then some (c.toNat - 'A'.toNat + 10)
  else none

/-- Is the character a digit of the base? -/
def Base.isDigit (base : Base) (c : Char) : Bool :=
  match digitValue c with
  | some value => value < base.radix
  | none => false

/-- **The number that a run of digits denotes**, the most significant digit first. -/
def Base.ofDigits (base : Base) (digits : List Char) : Nat :=
  digits.foldl (fun n c => n * base.radix + (digitValue c).getD 0) 0

end StackCompiler
