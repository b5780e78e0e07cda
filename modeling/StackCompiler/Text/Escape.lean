/-!
# Characters inside messages

A message that names a character shows printable ASCII as it is. Tab, carriage return, newline,
both quotes and the backslash take a backslash, and every other character is written by its code
point in lower-case hexadecimal.
-/

namespace StackCompiler

/-- A natural number in lower-case hexadecimal, without padding. -/
def hexText (n : Nat) : String := String.ofList (Nat.toDigits 16 n)

/-- A natural number in lower-case hexadecimal with at least `width` digits. -/
def paddedHexText (width n : Nat) : String :=
  let digits := Nat.toDigits 16 n
  String.ofList (List.replicate (width - digits.length) '0' ++ digits)

/-- **How a character is shown inside a message.** -/
def escapeChar (c : Char) : String :=
  if c = '\t' then "\\t"
  else if c = '\r' then "\\r"
  else if c = '\n' then "\\n"
  else if c = '\x27' ∨ c = '\x22' ∨ c = '\\' then "\\" ++ c.toString
  else if ' ' ≤ c ∧ c ≤ '~' then c.toString
  else "\\u\x7b" ++ hexText c.toNat ++ "\x7d"

end StackCompiler
