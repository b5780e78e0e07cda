/-!
# UTF-8

Reading bytes as characters. A first byte says how many bytes follow it and from which range the
first of those may come; all later ones lie in `0x80 … 0xBF`.

* `Utf8.next`: the first character, or the bytes left after the shortest broken start.
* `Utf8.decode`: the longest decodable beginning of a byte sequence, and the bytes after it.
* `Utf8.decodeLossy`: every broken piece is read as the replacement character.
* `Utf8.encode`: characters as bytes.
-/

namespace StackCompiler.Utf8

/-- Characters as bytes. -/
def encode (cs : List Char) : List UInt8 := cs.flatMap String.utf8EncodeChar

/-- What the first byte of a character asks of the bytes after it. -/
structure Lead where
  /-- How many bytes follow. -/
  tails : Nat
  /-- The least value of the first of them. -/
  low : Nat
  /-- The greatest value of the first of them. -/
  high : Nat
  /-- The bits of the code point that the first byte carries. -/
  payload : Nat

/-- **The first byte of a character.** Continuation bytes, `0xC0`, `0xC1` and everything from
`0xF5` on start no character. -/
def lead? (b : UInt8) : Option Lead :=
  let n := b.toNat
  if n < 0x80 then some ⟨0, 0x80, 0xBF, n⟩
  else if n < 0xC2 then none
  else if n < 0xE0 then some ⟨1, 0x80, 0xBF, n - 0xC0⟩
  else if n = 0xE0 then some ⟨2, 0xA0, 0xBF, 0⟩
  else if n = 0xED then some ⟨2, 0x80, 0x9F, 0xD⟩
  else if n < 0xF0 then some ⟨2, 0x80, 0xBF, n - 0xE0⟩
  else if n = 0xF0 then some ⟨3, 0x90, 0xBF, 0⟩
  else if n < 0xF4 then some ⟨3, 0x80, 0xBF, n - 0xF0⟩
  else if n = 0xF4 then some ⟨3, 0x80, 0x8F, 4⟩
  else none

/-- The bytes after a first byte: the character they complete, if they do, and what is left. A
byte that does not fit is left unread. -/
def complete : Nat → Nat → Nat → Nat → List UInt8 → Option Char × List UInt8
  | 0, _, _, code, rest => (some (Char.ofNat code), rest)
  | _ + 1, _, _, _, [] => (none, [])
  | tails + 1, low, high, code, b :: rest =>
    if low ≤ b.toNat ∧ b.toNat ≤ high then
      complete tails 0x80 0xBF (code * 64 + (b.toNat - 0x80)) rest
    else (none, b :: rest)

/-- **The first character of a byte sequence**, given by its first byte and the bytes after it.
`none` stands for the longest start of a character that the next byte breaks off. -/
def next (b : UInt8) (rest : List UInt8) : Option Char × List UInt8 :=
  match lead? b with
  | none => (none, rest)
  | some lead => complete lead.tails lead.low lead.high lead.payload rest

theorem length_complete_le (tails low high code : Nat) (rest : List UInt8) :
    (complete tails low high code rest).2.length ≤ rest.length := by
  induction rest generalizing tails low high code with
  | nil => cases tails <;> simp [complete]
  | cons b rest ih =>
    cases tails with
    | zero => simp [complete]
    | succ tails =>
      rw [complete]
      split
      · exact Nat.le_succ_of_le (ih ..)
      · exact Nat.le_refl _

theorem length_next_le (b : UInt8) (rest : List UInt8) :
    (next b rest).2.length ≤ rest.length := by
  unfold next
  split
  · exact Nat.le_refl _
  · exact length_complete_le ..

/-- **The longest decodable beginning**: its characters, and the bytes after it. -/
def decode : List UInt8 → List Char × List UInt8
  | [] => ([], [])
  | b :: rest =>
    let step := next b rest
    match step.1 with
    | none => ([], b :: rest)
    | some c =>
      let (cs, undecoded) := decode step.2
      (c :: cs, undecoded)
termination_by bytes => bytes.length
decreasing_by exact Nat.lt_succ_of_le (length_next_le b rest)

/-- The characters of a byte sequence that is UTF-8 to its end. -/
def decode? (bytes : List UInt8) : Option (List Char) :=
  match decode bytes with
  | (cs, []) => some cs
  | (_, _ :: _) => none

/-- Every broken piece is read as U+FFFD. -/
def decodeLossy : List UInt8 → List Char
  | [] => []
  | b :: rest =>
    let step := next b rest
    step.1.getD '\uFFFD' :: decodeLossy step.2
termination_by bytes => bytes.length
decreasing_by exact Nat.lt_succ_of_le (length_next_le b rest)

end StackCompiler.Utf8
