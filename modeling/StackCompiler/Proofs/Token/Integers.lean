import Mathlib.Data.Set.Basic
import StackCompiler.Proofs.Numeral.Digits
import StackCompiler.Proofs.Token.Numerals

/-!
# Integer literals

A literal is the whole word up to the next blank or bracket. A word in the form of an integer is
read if and only if the number that it denotes lies in the range of its type, and then with exactly
this number.

* `Numeral.IntegerText`, `Numeral.RealText`: the two forms of a literal.
* `Numeral.signedValue`, `NumberType.range`: numbers and ranges as mathematics has them.
* **`Lexer.next_number`**: what the lexer makes of a word that begins with a digit or a sign.
-/

namespace StackCompiler

/-! ## Numbers and ranges -/

namespace NumberType

/-- **The integers of a type.** -/
def range : NumberType → Set Int
  | .signed width => {value | -2 ^ (width.bits - 1) ≤ value ∧ value < 2 ^ (width.bits - 1)}
  | .unsigned width => {value | 0 ≤ value ∧ value < 2 ^ width.bits}
  | _ => ∅

theorem holds_iff (type : NumberType) (value : Int) : type.holds value = true ↔ value ∈ type.range := by
  cases type with
  | signed width => simp [holds, range]
  | unsigned width => simp [holds, range]
  | float32 => simp [holds, range]
  | float64 => simp [holds, range]

instance (type : NumberType) (value : Int) : Decidable (value ∈ type.range) :=
  decidable_of_iff _ (type.holds_iff value)

/-- No type has integers of more than 64 bits. -/
theorem natAbs_lt_of_mem_range {type : NumberType} {value : Int} (h : value ∈ type.range) :
    value.natAbs < 2 ^ 64 := by
  cases type with
  | signed width =>
    obtain ⟨hlow, hhigh⟩ := h
    cases width <;> simp only [Width.bits] at hlow hhigh <;> omega
  | unsigned width =>
    obtain ⟨hlow, hhigh⟩ := h
    cases width <;> simp only [Width.bits] at hlow hhigh <;> omega
  | float32 => exact h.elim
  | float64 => exact h.elim

/-- An integer of the type as the value of a token. -/
def valueOf : NumberType → Int → TokenValue
  | .signed _, value => .int value
  | _, value => .uint value.toNat

end NumberType

namespace Numeral

/-- **The number that a sign and digits denote.** -/
def signedValue (negative : Bool) (base : Base) (digits : List Char) : Int :=
  (if negative then -1 else 1) *
    (Nat.ofDigits base.radix (digits.reverse.map fun c => (digitValue c).getD 0) : Nat)

theorem integerValue_eq (n : Numeral) :
    n.integerValue = signedValue n.negative n.base n.integer := by
  rw [signedValue, ← Base.ofDigits_eq, integerValue]
  cases n.negative <;> simp

theorem natAbs_signedValue (negative : Bool) (base : Base) (digits : List Char) :
    (signedValue negative base digits).natAbs = base.ofDigits digits := by
  rw [signedValue, ← Base.ofDigits_eq]
  cases negative <;> simp

/-- **An integer literal has exactly its value**, or is out of range. -/
theorem integerToken_eq (n : Numeral) {type : NumberType} (htype : type.isFloat = false)
    (text : String) :
    (n.integerValue ∈ type.range → n.integerToken type text = .ok (type.valueOf n.integerValue)) ∧
      (n.integerValue ∉ type.range →
        ∃ target, n.integerToken type text = .error (.numericOverflow text target)) := by
  constructor
  · intro hrange
    have hsmall : ¬ Nat.pow 2 64 ≤ n.base.ofDigits n.integer := by
      rw [← natAbs_signedValue n.negative, ← integerValue_eq]
      exact Nat.not_le_of_lt (NumberType.natAbs_lt_of_mem_range hrange)
    unfold integerToken
    rw [if_neg hsmall, if_pos ((type.holds_iff _).mpr hrange)]
    cases type with
    | signed width => rfl
    | unsigned width => rfl
    | float32 => cases htype
    | float64 => cases htype
  · intro hrange
    unfold integerToken
    split_ifs with hlarge hholds
    · exact ⟨_, rfl⟩
    · exact absurd ((type.holds_iff _).mp hholds) hrange
    · exact ⟨_, rfl⟩

/-! ## The two forms of a literal -/

/-- **The text of an integer**: a sign or a base, digits, and an integer type if one is written. -/
structure IntegerText (negative : Bool) (base : Base) (digits : List Char)
    (suffix : Option NumberType) (text : List Char) : Prop where
  parts : ∃ opening, Opening negative base opening ∧ text = opening ++ (digits ++ suffixText suffix)
  isDigits : IsDigits base digits
  isPlain : IsPlain base digits
  isInteger : ∀ type ∈ suffix, type.isFloat = false

/-- **The text of a real number**: a numeral with a point, an exponent or a floating point type. -/
def RealText (text : List Char) : Prop :=
  ∃ n : Numeral, n.Written text ∧ (n.isReal = true ∨ ∃ type ∈ n.suffix, type.isFloat = true)

theorem IntegerText.written {negative : Bool} {base : Base} {digits text : List Char}
    {suffix : Option NumberType} (h : IntegerText negative base digits suffix text) :
    Written ⟨negative, base, digits, [], none, suffix⟩ text := by
  obtain ⟨opening, hopening, htext⟩ := h.parts
  refine ⟨⟨opening, [], [], by simpa using htext, hopening, .absent, .absent⟩, h.isDigits, h.isPlain,
    ?_, fun _ _ => h.isInteger⟩
  intro hreal
  cases hreal

/-- A numeral without a point, an exponent or a floating point type is an integer. -/
theorem Written.integerText {n : Numeral} {text : List Char} (h : n.Written text)
    (hreal : n.isReal = false) (hsuffix : ∀ type ∈ n.suffix, type.isFloat = false) :
    IntegerText n.negative n.base n.integer n.suffix text := by
  obtain ⟨opening, fraction, exponent, htext, hopening, hfraction, hexponent⟩ := h.parts
  obtain ⟨hfr, hexp⟩ : n.fraction = [] ∧ n.exponent = none := by simpa [isReal] using hreal
  obtain rfl := hfraction.eq_nil_iff.mpr hfr
  obtain rfl := hexponent.eq_nil_iff.mpr hexp
  exact ⟨⟨opening, hopening, by simpa using htext⟩, h.isDigits, h.isPlain, hsuffix⟩

/-- A numeral is an integer or a real number. -/
theorem Written.forms {n : Numeral} {text : List Char} (h : n.Written text) :
    IntegerText n.negative n.base n.integer n.suffix text ∨ RealText text := by
  by_cases hfloat : n.isReal = true ∨ ∃ type ∈ n.suffix, type.isFloat = true
  · exact .inr ⟨n, h, hfloat⟩
  · obtain ⟨hreal, hsuffix⟩ := not_or.mp hfloat
    refine .inl (h.integerText (Bool.eq_false_iff.mpr hreal) fun type htype => ?_)
    exact Bool.eq_false_iff.mpr fun hf => hsuffix ⟨type, htype, hf⟩

/-- **An integer literal denotes exactly its number**, or is out of range. -/
theorem IntegerText.evaluate_eq {negative : Bool} {base : Base} {digits text : List Char}
    {suffix : Option NumberType} (h : IntegerText negative base digits suffix text) (word : String) :
    let type := suffix.getD (.signed .w64)
    let value := signedValue negative base digits
    (value ∈ type.range → evaluate ⟨negative, base, digits, [], none, suffix⟩ word =
      .ok (type, type.valueOf value)) ∧
    (value ∉ type.range → ∃ target, evaluate ⟨negative, base, digits, [], none, suffix⟩ word =
      .error (.numericOverflow word target)) := by
  intro type value
  have htype : type.isFloat = false := by
    cases suffix with
    | none => rfl
    | some type => exact h.isInteger type rfl
  have hfloat : (suffix.map NumberType.isFloat).getD false = false := by
    cases suffix with
    | none => rfl
    | some type => exact h.isInteger type rfl
  have heval : evaluate ⟨negative, base, digits, [], none, suffix⟩ word =
      (integerToken ⟨negative, base, digits, [], none, suffix⟩ type word).map (type, ·) := by
    simp only [evaluate, isReal, hfloat]
    rfl
  obtain ⟨hin, hout⟩ := integerToken_eq ⟨negative, base, digits, [], none, suffix⟩ htype word
  rw [integerValue_eq] at hin hout
  constructor
  · intro hrange
    rw [heval, hin hrange]
    rfl
  · intro hrange
    obtain ⟨target, htarget⟩ := hout hrange
    exact ⟨target, by rw [heval, htarget]; rfl⟩

end Numeral

/-! ## Words -/

/-- The word at the front of a text, up to a blank, a bracket or the end. -/
def frontWord (input : List Char) : List Char := input.takeWhile fun c => !isTerminator c

theorem frontWord_append {text rest : List Char} (htext : Numeral.Unbroken text) (hrest : AtEnd rest) :
    frontWord (text ++ rest) = text := by
  have hall : ∀ c ∈ text, (!isTerminator c) = true := fun c hc => by rw [htext c hc]; rfl
  exact (takeWhile_append_avoids hall (hrest.avoids fun c hc => by rw [hc]; rfl)).1

theorem exists_frontWord_append (input : List Char) :
    ∃ rest, input = frontWord input ++ rest ∧ AtEnd rest := by
  refine ⟨input.dropWhile fun c => !isTerminator c, List.takeWhile_append_dropWhile.symm, ?_⟩
  cases hdrop : input.dropWhile fun c => !isTerminator c with
  | nil => trivial
  | cons c rest =>
    have havoids := avoids_dropWhile (p := fun c => !isTerminator c) input
    rw [hdrop, avoids_cons] at havoids
    simpa [AtEnd] using havoids

theorem scanNumber_written (k : Nat) {n : Numeral} {text rest : List Char} (h : n.Written text)
    (hrest : AtEnd rest) : scanNumber ⟨k, text ++ rest⟩ =
      match n.evaluate (String.ofList text) with
      | .ok (type, value) => .ok (.number type, value) ⟨k + text.length, rest⟩
      | .error cause => .error ⟨k, cause⟩ ⟨k + text.length, rest⟩ := by
  have htext : Cursor.textTo ⟨k, text ++ rest⟩ ⟨k + text.length, rest⟩ = text := by
    simp [Cursor.textTo]
  have hexpect : Scanner.expectEnd .trailingSymbol ⟨k + text.length, rest⟩ =
      .ok () ⟨k + text.length, rest⟩ := Scanner.expectEnd_eq_ok.mpr ⟨hrest, rfl⟩
  rw [scanNumber, Scanner.get_bind, Scanner.bind_apply, Numeral.scan_written k h hrest]
  dsimp only
  rw [Scanner.bind_apply, hexpect]
  dsimp only
  rw [Scanner.get_bind, htext]
  cases n.evaluate (String.ofList text) with
  | ok value => rfl
  | error cause => rfl

namespace Lexer

/-- Does a literal number begin with the character? -/
def beginsNumber (c : Char) : Bool := Base.decimal.isDigit c || c == '+' || c == '-'

variable {lexer : Lexer} {c : Char} {rest : List Char}

theorem next_scanNumber (hinput : lexer.input = c :: rest) (hpending : lexer.pending = none)
    (hc : beginsNumber c = true) : lexer.next.1 = match scanNumber ⟨0, c :: rest⟩ with
      | .error fault _ => .error ⟨fault.cause, lexer.place fault.place⟩
      | .ok (kind, value) stop => .ok ⟨kind, lexer.location, lexer.count, value,
          String.ofList ((c :: rest).take stop.read)⟩ := by
  have hne {d : Char} (hd : beginsNumber d = false) : c ≠ d := by
    rintro rfl
    rw [hc] at hd
    cases hd
  have hbegins : beginsTrivia (c :: rest) = false := by
    rw [beginsTrivia_cons (hne (by decide))]
    simp [isBlank, hne (d := ';') (by decide), hne (d := ' ') (by decide),
      hne (d := '\t') (by decide), hne (d := '\n') (by decide), hne (d := '\r') (by decide)]
  have htoken : scanToken ⟨0, c :: rest⟩ = scanNumber ⟨0, c :: rest⟩ := by
    rw [scanToken, if_neg (hne (by decide)), if_pos]
    simpa [beginsNumber, or_assoc] using hc
  have hnext := next_scanToken hpending (by rw [hinput, hbegins])
  rw [hinput, Cursor.start, htoken] at hnext
  exact hnext

/-- A numeral that is the first word is read as such. -/
theorem next_written (hinput : lexer.input = c :: rest) (hpending : lexer.pending = none)
    (hc : beginsNumber c = true) {n : Numeral} (h : n.Written (frontWord lexer.input)) :
    lexer.next.1 = match n.evaluate (String.ofList (frontWord lexer.input)) with
      | .error cause => .error ⟨cause, lexer.location⟩
      | .ok (type, value) => .ok ⟨.number type, lexer.location, lexer.count, value,
          String.ofList (frontWord lexer.input)⟩ := by
  obtain ⟨left, hword, hleft⟩ := exists_frontWord_append lexer.input
  have htake : lexer.input.take (0 + (frontWord lexer.input).length) = frontWord lexer.input := by
    rw [Nat.zero_add]
    exact (List.prefix_iff_eq_take.mp (List.takeWhile_prefix _)).symm
  have hscan := scanNumber_written 0 h hleft
  rw [← hword, hinput] at hscan
  rw [next_scanNumber hinput hpending hc, hscan, hinput]
  rw [hinput] at htake
  cases n.evaluate (String.ofList (frontWord (c :: rest))) with
  | ok value =>
    dsimp only
    rw [htake]
  | error cause => rfl

/-- **What is read is the whole first word**, and a numeral. -/
theorem written_of_next (hinput : lexer.input = c :: rest) (hpending : lexer.pending = none)
    (hc : beginsNumber c = true) {token : Token} (h : lexer.next.1 = .ok token) :
    token.text = String.ofList (frontWord lexer.input) ∧
      ∃ n : Numeral, n.Written (frontWord lexer.input) := by
  rw [next_scanNumber hinput hpending hc] at h
  cases hscan : scanNumber ⟨0, c :: rest⟩ with
  | ok result stop =>
    obtain ⟨n, -, -, hn, hend, -, -⟩ := scanNumber_eq_ok.mp hscan
    obtain ⟨text, htext, hread, hwritten⟩ := Numeral.written_of_scan hn
    have hword : frontWord lexer.input = text := by
      rw [hinput, htext]
      exact frontWord_append hwritten.unbroken hend
    rw [hscan] at h
    cases h
    dsimp only
    rw [hword, hread, htext]
    exact ⟨by simp, n, hwritten⟩
  | error fault stop =>
    rw [hscan] at h
    cases h

/-- **Integer literals are accepted exactly and valued exactly.** Where a text begins with a digit or a
sign, its first word is a literal or nothing is read. In the form of an integer, it is read if and only
if its number lies in the range of its type, with that number for its value. In no form of a literal,
it is an error. -/
theorem next_number (hinput : lexer.input = c :: rest) (hpending : lexer.pending = none)
    (hc : beginsNumber c = true) :
    (∀ negative base digits suffix,
      Numeral.IntegerText negative base digits suffix (frontWord lexer.input) →
        let type := suffix.getD (.signed .w64)
        let value := Numeral.signedValue negative base digits
        (value ∈ type.range → lexer.next.1 = .ok ⟨.number type, lexer.location, lexer.count,
          type.valueOf value, String.ofList (frontWord lexer.input)⟩) ∧
        (value ∉ type.range →
          ∃ e, lexer.next.1 = .error e ∧ e.cause.kind = .numericOverflow)) ∧
    (∀ token, lexer.next.1 = .ok token → token.text = String.ofList (frontWord lexer.input)) ∧
    ((¬ ∃ negative base digits suffix,
        Numeral.IntegerText negative base digits suffix (frontWord lexer.input)) →
      ¬ Numeral.RealText (frontWord lexer.input) → ∃ e, lexer.next.1 = .error e) := by
  refine ⟨?_, fun token h => (written_of_next hinput hpending hc h).1, ?_⟩
  · intro negative base digits suffix hform type value
    obtain ⟨hin, hout⟩ := hform.evaluate_eq (String.ofList (frontWord lexer.input))
    rw [next_written hinput hpending hc hform.written]
    constructor
    · intro hrange
      rw [hin hrange]
    · intro hrange
      obtain ⟨target, htarget⟩ := hout hrange
      rw [htarget]
      exact ⟨_, rfl, rfl⟩
  · intro hinteger hreal
    cases hnext : lexer.next.1 with
    | error e => exact ⟨e, rfl⟩
    | ok token =>
      obtain ⟨-, n, hn⟩ := written_of_next hinput hpending hc hnext
      rcases hn.forms with hform | hform
      · exact absurd ⟨_, _, _, _, hform⟩ hinteger
      · exact absurd hform hreal

/-- At the ends of a range: the least number is read, and one more than the greatest is not. -/
theorem next_number_limits :
    (ofChars "-128i8)".toList).next.1 =
        .ok ⟨.number (.signed .w8), .start, 0, .int (-128), "-128i8"⟩ ∧
      ∃ e, (ofChars "0x80i8 ".toList).next.1 = .error e ∧ e.cause.kind = .numericOverflow := by
  have hleast : Numeral.IntegerText true .decimal ['1', '2', '8'] (some (.signed .w8))
      (frontWord (ofChars "-128i8)".toList).input) := by
    refine ⟨⟨['-'], .minus, by decide⟩, ⟨by decide, List.all_eq_true.mp (by decide)⟩,
      fun _ h => ?_, fun _ h => ?_⟩
    · exact absurd h (by decide)
    · cases h
      rfl
  have hgreater : Numeral.IntegerText false .hexadecimal ['8', '0'] (some (.signed .w8))
      (frontWord (ofChars "0x80i8 ".toList).input) := by
    refine ⟨⟨['0', 'x'], .base rfl, by decide⟩, ⟨by decide, List.all_eq_true.mp (by decide)⟩,
      fun h => ?_, fun _ h => ?_⟩
    · cases h
    · cases h
      rfl
  constructor
  · exact ((next_number rfl rfl (by decide)).1 _ _ _ _ hleast).1 (by decide)
  · exact ((next_number rfl rfl (by decide)).1 _ _ _ _ hgreater).2 (by decide)

end Lexer

end StackCompiler
