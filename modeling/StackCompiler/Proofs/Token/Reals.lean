import StackCompiler.Proofs.Numeral.Rounding
import StackCompiler.Proofs.Token.Integers

/-!
# Whole numbers of a floating point type

Digits with the name of a floating point type behind them are a real number. A base in front says which
digits there may be, but binary and octal digits are read in base ten all the same, so they denote the
number that was meant only if there is no more than one of them.

* `Base.isDigits_toDigits`, `Base.isPlain_toDigits`: the digits of a number as they are written.
* `Numeral.evaluate_digits`: what digits of a floating point type denote.
* **`Lexer.next_digits`**: what the lexer makes of the digits of a number.
-/

namespace StackCompiler

open FloatFormat

namespace Numeral

/-! ## The digits of a number -/

theorem isDigits_toDigits (base : Base) (n : Nat) : IsDigits base (Nat.toDigits base.radix n) :=
  ⟨Nat.toDigits_ne_nil, fun _ => Base.isDigit_of_mem_toDigits⟩

theorem isPlain_toDigits (base : Base) (n : Nat) : IsPlain base (Nat.toDigits base.radix n) := by
  intro _ hzero
  rw [Base.eq_zero_of_head?_toDigits hzero, Nat.toDigits_zero]

/-! ## Values -/

theorem decimalMagnitude_whole (digits : List Char) :
    decimalMagnitude digits 0 = double.round (Base.decimal.ofDigits digits * double.one) 1 := by
  have hlarge : ¬ (decimalReach : Int) + digits.length ≤ 0 := by
    unfold decimalReach
    omega
  have hsmall : ¬ 0 + (digits.length : Int) ≤ -(decimalReach : Int) := by
    unfold decimalReach
    omega
  unfold decimalMagnitude
  dsimp only
  rw [if_neg hlarge, if_neg hsmall, if_pos (Int.le_refl 0)]
  split_ifs with hzero
  · rw [hzero, Nat.zero_mul, round_zero]
  · simp

theorem infinity_double : double.infinity = 2 ^ 1024 * double.one := by decide +kernel

theorem signBit_double : double.signBit = 2 ^ 63 := by decide +kernel

/-- **Digits of the 64-bit floating point type are read in base ten.** -/
theorem evaluate_digits {base : Base} (hbase : base ≠ .hexadecimal) {digits : List Char}
    (hsmall : 2 * Base.decimal.ofDigits digits < 2 ^ 1024) (word : String) :
    let number := Base.decimal.ofDigits digits
    ∃ bits : UInt64, evaluate ⟨false, base, digits, [], none, some .float64⟩ word =
        .ok (.float64, .float bits) ∧
      |double.value bits.toNat - number| ≤ number / 2 ^ 53 ∧
      (number ≤ 2 ^ 53 → double.value bits.toNat = number) := by
  intro number
  have hfinite : 2 * (number * double.one) < double.infinity := by
    rw [infinity_double, ← Nat.mul_assoc]
    exact Nat.mul_lt_mul_of_pos_right hsmall double.one_pos
  obtain ⟨hholds, hround, -⟩ := round_spec hfinite
  have hbits := bits_lt_signBit hholds hround
  rw [signBit_double] at hbits
  refine ⟨UInt64.ofNat (double.bits (double.round (number * double.one) 1)), ?_, ?_⟩
  · have hmagnitude : magnitude ⟨false, base, digits, [], none, some .float64⟩ =
        double.round (number * double.one) 1 := by
      rw [← decimalMagnitude_whole, magnitude, if_neg hbase, List.append_nil]
      rfl
    have hreal : realBits ⟨false, base, digits, [], none, some .float64⟩ .float64 word =
        .ok (UInt64.ofNat (double.bits (double.round (number * double.one) 1))) := by
      unfold realBits
      rw [hmagnitude, if_neg (Nat.not_le.mpr hround)]
      simp
    simp only [evaluate, NumberType.isFloat, Option.map_some, Option.getD_some, Bool.or_true, if_true,
      hreal]
    rfl
  · rw [UInt64.toNat_ofNat_of_lt' (Nat.lt_trans hbits (by decide))]
    exact value_round hfinite

/-- A numeral begins with a digit or a sign. -/
theorem Opening.begins {negative : Bool} {base : Base} {opening digits : List Char}
    (h : Opening negative base opening) (hdigits : IsDigits base digits) (rest : List Char) :
    ∃ c more, opening ++ (digits ++ rest) = c :: more ∧ Lexer.beginsNumber c = true := by
  cases h with
  | plain =>
    obtain ⟨c, digits, rfl⟩ := List.exists_cons_of_ne_nil hdigits.ne_nil
    exact ⟨c, _, rfl, by rw [Lexer.beginsNumber, hdigits.isDigit c (.head _)]; rfl⟩
  | plus => exact ⟨'+', _, rfl, rfl⟩
  | minus => exact ⟨'-', _, rfl, rfl⟩
  | base _ => exact ⟨'0', _, rfl, rfl⟩

/-- Digits of a base up to ten are no more than the exponents of the format reach. -/
theorem ofDigits_toDigits_small {base : Base} (hbase : base ≠ .hexadecimal) {n : Nat}
    (hn : n < 2 ^ 53) : Base.decimal.ofDigits (Nat.toDigits base.radix n) < 10 ^ 53 := by
  have hradix : base.radix ≤ 10 := by
    cases base with
    | hexadecimal => exact absurd rfl hbase
    | binary => decide
    | octal => decide
    | decimal => decide
  have hlength : (Nat.toDigits base.radix n).length ≤ 53 := by
    rw [Nat.length_toDigits_le_iff base.one_lt_radix (by decide)]
    exact Nat.lt_of_lt_of_le hn (Nat.pow_le_pow_left base.one_lt_radix 53)
  have hdigits : ∀ c ∈ Nat.toDigits base.radix n, Base.decimal.isDigit c = true := by
    intro c hc
    have hdigit := Base.isDigit_of_mem_toDigits hc
    unfold Base.isDigit at hdigit ⊢
    cases hvalue : digitValue c with
    | none => simp [hvalue] at hdigit
    | some value =>
      simp only [hvalue, decide_eq_true_eq] at hdigit ⊢
      exact Nat.lt_of_lt_of_le hdigit hradix
  exact Nat.lt_of_lt_of_le (Base.ofDigits_lt hdigits) (Nat.pow_le_pow_right (by decide) hlength)

/-- **Which numbers keep their value when their digits are read in base ten**: those of base ten, and
those of one digit. All others are off by more than rounding can be. -/
theorem value_eq_iff {base : Base} (hbase : base ≠ .hexadecimal) {n : Nat} (hn : n < 2 ^ 53) {x : ℚ} :
    let read := Base.decimal.ofDigits (Nat.toDigits base.radix n)
    |x - read| ≤ read / 2 ^ 53 → (read ≤ 2 ^ 53 → x = read) →
      (x = n ↔ base = .decimal ∨ n < base.radix) := by
  intro read hnear hexact
  constructor
  · intro hx
    by_contra hne
    obtain ⟨hdecimal, hlong⟩ := not_or.mp hne
    have hlong := Nat.le_of_not_lt hlong
    have hradix : base.radix ≤ 8 := by
      cases base with
      | hexadecimal => exact absurd rfl hbase
      | binary => decide
      | octal => decide
      | decimal => exact absurd rfl hdecimal
    have hgap : (17 : ℚ) * n ≤ 15 * read := by exact_mod_cast Base.gap_ofDigits_toDigits hradix hlong
    have hpos : (0 : ℚ) < n := by
      exact_mod_cast Nat.lt_of_lt_of_le (Nat.zero_lt_of_lt base.one_lt_radix) hlong
    have hbelow := (abs_le.mp hnear).1
    rw [hx] at hbelow
    norm_num at hbelow
    linarith
  · intro hsame
    have hread : read = n := by
      rcases hsame with rfl | hlt
      · exact Base.ofDigits_toDigits .decimal n
      · exact Base.ofDigits_toDigits_of_lt hlt
    rw [hexact (by omega), hread]

end Numeral

namespace Lexer

variable {lexer : Lexer} {base : Base} {opening digits after : List Char} {n : Nat}

/-- Digits of the 64-bit floating point type are read with the value of the numeral. -/
theorem next_float (hbase : base ≠ .hexadecimal) (hopening : Numeral.Opening false base opening)
    (hdigits : Numeral.IsDigits base digits) (hplain : Numeral.IsPlain base digits)
    (hpending : lexer.pending = none) (hafter : AtEnd after)
    (hinput : lexer.input = opening ++ (digits ++ "f64".toList) ++ after) {value : TokenValue}
    (heval : Numeral.evaluate ⟨false, base, digits, [], none, some .float64⟩
      (String.ofList (opening ++ (digits ++ "f64".toList))) = .ok (.float64, value)) :
    lexer.next.1 = .ok ⟨.number .float64, lexer.location, lexer.count, value,
      String.ofList (opening ++ (digits ++ "f64".toList))⟩ := by
  have hwritten : Numeral.Written ⟨false, base, digits, [], none, some .float64⟩
      (opening ++ (digits ++ "f64".toList)) :=
    { parts := ⟨opening, [], [], rfl, hopening, .absent, .absent⟩
      isDigits := hdigits
      isPlain := hplain
      isFloat := fun _ type htype => by
        cases htype
        rfl
      greedy := fun h => absurd h hbase }
  have hword : frontWord lexer.input = opening ++ (digits ++ "f64".toList) := by
    rw [hinput]
    exact frontWord_append hwritten.unbroken hafter
  obtain ⟨c, more, hcons, hc⟩ := hopening.begins hdigits ("f64".toList ++ after)
  have hbegins : lexer.input = c :: more := by
    rw [hinput, ← hcons]
    simp only [List.append_assoc]
  rw [← hword] at hwritten heval ⊢
  rw [next_written hbegins hpending hc hwritten, heval]

/-- **What the lexer makes of the digits of a number** in a base and of the 64-bit floating point type.
They are always read, as the number that they denote in base ten: exactly up to two to the 53, and
rounded from there on. This is the number itself if the base is ten or there is only one digit, and
never else. -/
theorem next_digits (hbase : base ≠ .hexadecimal) (hopening : Numeral.Opening false base opening)
    (hn : n < 2 ^ 53) (hpending : lexer.pending = none) (hafter : AtEnd after)
    (hinput : lexer.input = opening ++ (Nat.toDigits base.radix n ++ "f64".toList) ++ after) :
    let read := Base.decimal.ofDigits (Nat.toDigits base.radix n)
    ∃ bits : UInt64, lexer.next.1 = .ok ⟨.number .float64, lexer.location, lexer.count, .float bits,
        String.ofList (opening ++ (Nat.toDigits base.radix n ++ "f64".toList))⟩ ∧
      |double.value bits.toNat - read| ≤ read / 2 ^ 53 ∧
      (read ≤ 2 ^ 53 → double.value bits.toNat = read) ∧
      (double.value bits.toNat = n ↔ base = .decimal ∨ n < base.radix) := by
  intro read
  have hsmall : read < 10 ^ 53 := Numeral.ofDigits_toDigits_small hbase hn
  obtain ⟨bits, heval, hnear, hexact⟩ := Numeral.evaluate_digits hbase
    (show 2 * read < 2 ^ 1024 by omega)
    (String.ofList (opening ++ (Nat.toDigits base.radix n ++ "f64".toList)))
  refine ⟨bits, ?_, hnear, hexact, Numeral.value_eq_iff hbase hn hnear hexact⟩
  exact next_float hbase hopening (Numeral.isDigits_toDigits base n) (Numeral.isPlain_toDigits base n)
    hpending hafter hinput heval

/-- Seven in base eight is read as seven, and eight as ten. -/
theorem next_digits_octal :
    (∃ bits : UInt64, (ofChars "0o7f64 ".toList).next.1 =
        .ok ⟨.number .float64, .start, 0, .float bits, "0o7f64"⟩ ∧ double.value bits.toNat = 7) ∧
      ∃ bits : UInt64, (ofChars "0o10f64".toList).next.1 =
        .ok ⟨.number .float64, .start, 0, .float bits, "0o10f64"⟩ ∧ double.value bits.toNat = 10 := by
  have hopening : Numeral.Opening false .octal ['0', 'o'] := .base rfl
  constructor
  · have hinput : (ofChars "0o7f64 ".toList).input =
      ['0', 'o'] ++ (Nat.toDigits Base.octal.radix 7 ++ "f64".toList) ++ [' '] := by decide
    obtain ⟨bits, hnext, -, -, hvalue⟩ :=
      next_digits (by decide) hopening (by decide) rfl (show AtEnd [' '] from rfl) hinput
    exact ⟨bits, hnext, hvalue.mpr (.inr (by decide))⟩
  · have hinput : (ofChars "0o10f64".toList).input =
      ['0', 'o'] ++ (Nat.toDigits Base.octal.radix 8 ++ "f64".toList) ++ [] := by decide
    obtain ⟨bits, hnext, -, hvalue, -⟩ :=
      next_digits (by decide) hopening (by decide) rfl (show AtEnd [] from trivial) hinput
    exact ⟨bits, hnext, hvalue (by decide)⟩

/-- Two in base two is not the number that it is in base ten. -/
theorem binary_digits_differ :
    Nat.toDigits 2 2 = ['1', '0'] ∧
      (ofChars "0b10f64".toList).next.1 =
        .ok ⟨.number .float64, .start, 0, .float 0x4024000000000000, "0b10f64"⟩ ∧
      (ofChars "2f64".toList).next.1 =
        .ok ⟨.number .float64, .start, 0, .float 0x4000000000000000, "2f64"⟩ ∧
      double.value 0x4024000000000000 = 10 ∧ double.value 0x4000000000000000 = 2 := by
  refine ⟨by decide, ?_, ?_, by decide +kernel, by decide +kernel⟩
  · have hopening : Numeral.Opening false .binary ['0', 'b'] := .base rfl
    have hdigits : Numeral.IsDigits .binary ['1', '0'] := ⟨by decide, List.all_eq_true.mp rfl⟩
    have hplain : Numeral.IsPlain .binary ['1', '0'] := by
      intro h
      cases h
    exact next_float (by decide) hopening hdigits hplain rfl
      (show AtEnd [] from trivial) (by decide) (by decide +kernel)
  · have hdigits : Numeral.IsDigits .decimal ['2'] := ⟨by decide, List.all_eq_true.mp rfl⟩
    have hplain : Numeral.IsPlain .decimal ['2'] := by
      intro _ h
      cases h
    exact next_float (by decide) .plain hdigits hplain rfl
      (show AtEnd [] from trivial) (by decide) (by decide +kernel)

end Lexer

end StackCompiler
