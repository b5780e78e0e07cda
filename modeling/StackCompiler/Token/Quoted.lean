import StackCompiler.Token.Basic
import StackCompiler.Token.Scanner
import StackCompiler.Numeral.Digits

/-!
# String literals

A string literal stands between double quotes. A backslash opens an escape; every other character
denotes its own UTF-8 bytes. A `c` right after the closing quote asks for a closing zero byte.

* `Escape.simple?`: escapes of one character.
* `Escape.scan`: the bytes of an escape.
* `scanQuoted`: a whole literal.
-/

namespace StackCompiler

namespace Escape

/-- The character that an escape of one character denotes. -/
def simple? (selector : Char) : Option Char :=
  if selector = '0' then some '\x00'
  else if selector = 'a' then some '\x07'
  else if selector = 'b' then some '\x08'
  else if selector = 'f' then some '\x0c'
  else if selector = 'n' then some '\n'
  else if selector = 'r' then some '\r'
  else if selector = 't' then some '\t'
  else if selector = 'v' then some '\x0b'
  else if selector = '\\' ∨ selector = '\x27' ∨ selector = '\x22' then some selector
  else none

/-- How many hexadecimal digits follow the selector of a longer escape. -/
def digitCount? (selector : Char) : Option Nat :=
  if selector = 'x' then some 2
  else if selector = 'u' then some 4
  else if selector = 'U' then some 8
  else none

/-- The bytes of an escape given by its number: one byte, or the UTF-8 bytes of a character. -/
def bytesOf? (selector : Char) (value : Nat) : Option (List UInt8) :=
  if selector = 'x' then some [UInt8.ofNat value]
  else if value.isValidChar then some (String.utf8EncodeChar (Char.ofNat value))
  else none

/-- An invalid escape that begins with a selector, at the place of its backslash. -/
def invalid (place : Nat) (selector : Char) (rest : String) : ScanFault :=
  ⟨place, .invalidEscape (selector.toString ++ rest)⟩

/-- **The bytes of an escape.** The backslash, at `place`, has been read. -/
def scan (place : Nat) : Scanner (List UInt8)
  | ⟨read, []⟩ => .error ⟨place, .unterminatedEscape⟩ ⟨read, []⟩
  | ⟨read, selector :: rest⟩ =>
    let next : Cursor := ⟨read + 1, rest⟩
    match simple? selector, digitCount? selector with
    | some c, _ => .ok (String.utf8EncodeChar c) next
    | none, none => .error (invalid place selector "") next
    | none, some count =>
      let digits := (rest.take count).takeWhile Base.hexadecimal.isDigit
      let after := next.skip digits.length
      if digits.length = count then
        let value := Base.hexadecimal.ofDigits digits
        match bytesOf? selector value with
        | some bytes => .ok bytes after
        | none => .error (invalid place selector (paddedHexText count value)) after
      else .error (invalid place selector (String.ofList digits)) after

theorem scan_movesOn (place : Nat) : (scan place).MovesOn := by
  intro c
  unfold scan
  split
  · exact .refl _
  · next read selector rest =>
    have hone := Cursor.reaches_cons read selector rest
    have hskip (n : Nat) := hone.trans (Cursor.reaches_skip ⟨read + 1, rest⟩ n)
    dsimp only
    split
    · exact hone
    · exact hone
    · split
      · split <;> exact hskip _
      · exact hskip _

end Escape

/-- Puts bytes in front of those that a scanner has read. -/
def prependBytes (bytes : List UInt8) :
    EStateM.Result ScanFault Cursor (List UInt8) → EStateM.Result ScanFault Cursor (List UInt8)
  | .ok more c => .ok (bytes ++ more) c
  | .error fault c => .error fault c

/-- **The bytes up to the closing quote**, which is read too. `start` is where the opening quote
stands. -/
def scanQuotedBytes (start : Nat) : Scanner (List UInt8)
  | ⟨read, []⟩ => .error ⟨start, .unterminatedString⟩ ⟨read, []⟩
  | ⟨read, c :: rest⟩ =>
    if c = '\x22' then .ok [] ⟨read + 1, rest⟩
    else if c = '\\' then
      match h : Escape.scan read ⟨read + 1, rest⟩ with
      | .error fault after => .error fault after
      | .ok bytes after =>
        have : after.rest.length ≤ rest.length := by
          have := (Escape.scan_movesOn read ⟨read + 1, rest⟩).length_le
          rw [h] at this
          exact this
        prependBytes bytes (scanQuotedBytes start after)
    else prependBytes (String.utf8EncodeChar c) (scanQuotedBytes start ⟨read + 1, rest⟩)
termination_by c => c.rest.length
decreasing_by
  · exact Nat.lt_succ_of_le this
  · exact Nat.lt_succ_self _

/-- A `c` after which the literal ends. -/
def scanTerminatedMark : Scanner Bool := do
  match (← get).rest with
  | ['c'] =>
    Scanner.skip 1
    return true
  | 'c' :: d :: _ =>
    if isTerminator d then
      Scanner.skip 1
      return true
    else return false
  | _ => return false

/-- **Reads a string literal**, which begins with its opening quote. -/
def scanQuoted : Scanner (TokenKind × TokenValue) := do
  let start ← get
  Scanner.skip 1
  let bytes ← scanQuotedBytes start.read
  let terminated ← scanTerminatedMark
  Scanner.expectEnd .trailingSymbol
  return (.string terminated, .bytes bytes)

/-! ## Progress -/

theorem cursorAfter_prependBytes (bytes : List UInt8)
    (result : EStateM.Result ScanFault Cursor (List UInt8)) :
    cursorAfter (prependBytes bytes result) = cursorAfter result := by
  cases result <;> rfl

theorem scanQuotedBytes_movesOn (start : Nat) : (scanQuotedBytes start).MovesOn := by
  intro c
  fun_induction scanQuotedBytes start c with
  | case1 => exact .refl _
  | case2 read rest => exact Cursor.reaches_cons ..
  | case3 read rest fault after h _ =>
    have := Escape.scan_movesOn read ⟨read + 1, rest⟩
    rw [h] at this
    exact (Cursor.reaches_cons ..).trans this
  | case4 read rest bytes after h _ _ ih =>
    have := Escape.scan_movesOn read ⟨read + 1, rest⟩
    rw [h] at this
    rw [cursorAfter_prependBytes]
    exact ((Cursor.reaches_cons ..).trans this).trans ih
  | case5 read c rest _ _ ih =>
    rw [cursorAfter_prependBytes]
    exact (Cursor.reaches_cons ..).trans ih

theorem scanTerminatedMark_movesOn : scanTerminatedMark.MovesOn := by
  refine Scanner.MovesOn.get.bind fun here => ?_
  split
  · exact (Scanner.MovesOn.skip 1).bind fun _ => .pure _
  · split
    · exact (Scanner.MovesOn.skip 1).bind fun _ => .pure _
    · exact .pure _
  · exact .pure _

theorem length_rest_scanQuoted_lt (read : Nat) (c : Char) (rest : List Char) :
    (cursorAfter (scanQuoted ⟨read, c :: rest⟩)).rest.length < (c :: rest).length := by
  have h : Cursor.Reaches ⟨read + 1, rest⟩ (cursorAfter (scanQuoted ⟨read, c :: rest⟩)) :=
    (scanQuotedBytes_movesOn read).bind (fun _ =>
      scanTerminatedMark_movesOn.bind fun _ =>
        (Scanner.MovesOn.expectEnd _).bind fun _ => .pure _) ⟨read + 1, rest⟩
  exact Nat.lt_succ_of_le h.length_le

end StackCompiler
