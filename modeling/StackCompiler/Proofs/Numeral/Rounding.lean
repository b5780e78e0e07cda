import Mathlib.Algebra.Order.Field.Rat
import Mathlib.Data.Nat.Log
import Mathlib.Tactic.Ring
import Mathlib.Tactic.FieldSimp
import Mathlib.Tactic.Linarith
import Mathlib.Tactic.Push
import StackCompiler.Numeral.Magnitude

/-!
# Rounding to a floating point format

A magnitude belongs to a format if its significand fits in the bits there are. Rounding gives such a
magnitude, at most half a unit of the last place away, and leaves one alone that belongs already.

* `FloatFormat.value`: the number of a bit pattern.
* `FloatFormat.Holds`: magnitudes of a format; `FloatFormat.units_bits`: these are kept by their bits.
* **`FloatFormat.value_round`**: a whole number rounded.
-/

namespace StackCompiler

/-! ## Quotients -/

theorem roundHalfEven_near (num : Nat) {den : Nat} (hden : 0 < den) :
    2 * num ≤ 2 * (roundHalfEven num den * den) + den ∧
      2 * (roundHalfEven num den * den) ≤ 2 * num + den := by
  have hdiv := Nat.div_add_mod' num den
  have hmod := Nat.mod_lt num hden
  unfold roundHalfEven
  dsimp only
  split_ifs with hless hmore
  · omega
  · rw [Nat.add_mul, Nat.one_mul]
    omega
  · rcases Nat.mod_two_eq_zero_or_one (num / den) with heven | hodd
    · rw [heven, Nat.add_zero]
      omega
    · rw [hodd, Nat.add_mul, Nat.one_mul]
      omega

theorem roundHalfEven_mul (quotient : Nat) {den : Nat} (hden : 0 < den) :
    roundHalfEven (quotient * den) den = quotient := by
  unfold roundHalfEven
  simp [Nat.mul_div_cancel _ hden, hden]

theorem roundHalfEven_le_of_lt {num den bound : Nat} (h : num < bound * den) :
    roundHalfEven num den ≤ bound := by
  have hquotient : num / den < bound := Nat.div_lt_of_lt_mul (by rwa [Nat.mul_comm])
  have hmod := Nat.mod_lt (num / den) two_pos
  unfold roundHalfEven
  dsimp only
  split_ifs <;> omega

namespace FloatFormat

variable {f : FloatFormat}

/-! ## Magnitudes and their bits -/

theorem one_pos (f : FloatFormat) : 0 < f.one := Nat.pow_pos two_pos

/-- **The magnitude belongs to the format**: its significand has one bit more than the stored ones. -/
def Holds (f : FloatFormat) (units : Nat) : Prop := 2 ^ (units.log2 - f.fractionBits) ∣ units

theorem holds_mul_pow {significand : Nat} (h : significand ≤ 2 ^ (f.fractionBits + 1)) (k : Nat) :
    f.Holds (significand * 2 ^ k) := by
  unfold Holds
  rcases Nat.eq_zero_or_pos significand with rfl | hpos
  · simp
  have hne : significand * 2 ^ k ≠ 0 := by positivity
  rcases Nat.lt_or_eq_of_le h with hlt | rfl
  · have hlog : (significand * 2 ^ k).log2 < f.fractionBits + 1 + k := by
      rw [Nat.log2_lt hne, Nat.pow_add]
      exact Nat.mul_lt_mul_of_pos_right hlt (by positivity)
    exact (Nat.pow_dvd_pow 2 (by omega)).trans (Nat.dvd_mul_left _ _)
  · rw [← Nat.pow_add, Nat.log2_two_pow]
    exact Nat.pow_dvd_pow 2 (by omega)

/-- A magnitude of the format is stored as it is, or has a full significand. -/
theorem Holds.forms {u : Nat} (h : f.Holds u) : u < 2 ^ f.fractionBits ∨
    ∃ significand k, 2 ^ f.fractionBits ≤ significand ∧ significand < 2 ^ (f.fractionBits + 1) ∧
      u = significand * 2 ^ k := by
  rcases Nat.lt_or_ge u (2 ^ f.fractionBits) with hsmall | hlarge
  · exact .inl hsmall
  obtain ⟨significand, hu⟩ := h
  have hne : u ≠ 0 := (Nat.lt_of_lt_of_le (by positivity) hlarge).ne'
  have hlog : f.fractionBits ≤ u.log2 := (Nat.le_log2 hne).mpr hlarge
  have hlow := Nat.log2_self_le hne
  have hhigh := Nat.lt_log2_self (n := u)
  obtain ⟨k, hk⟩ := Nat.exists_eq_add_of_le hlog
  have hk' : u.log2 - f.fractionBits = k := by omega
  rw [hk'] at hu
  have hpos : 0 < 2 ^ k := by positivity
  rw [Nat.mul_comm] at hu
  rw [hk, Nat.pow_add, hu] at hlow
  rw [hk, show f.fractionBits + k + 1 = f.fractionBits + 1 + k by omega, Nat.pow_add, hu] at hhigh
  exact .inr ⟨significand, k, Nat.le_of_mul_le_mul_right hlow hpos,
    Nat.lt_of_mul_lt_mul_right hhigh, hu⟩

section Normal

variable {significand : Nat} (hlow : 2 ^ f.fractionBits ≤ significand)
  (hhigh : significand < 2 ^ (f.fractionBits + 1))

include hlow hhigh

theorem log2_mul_pow (k : Nat) : (significand * 2 ^ k).log2 = f.fractionBits + k := by
  have hne : significand * 2 ^ k ≠ 0 :=
    (Nat.mul_pos (Nat.lt_of_lt_of_le (by positivity) hlow) (by positivity)).ne'
  rw [Nat.log2_eq_iff hne]
  constructor
  · rw [Nat.pow_add]
    exact Nat.mul_le_mul_right _ hlow
  · rw [show f.fractionBits + k + 1 = f.fractionBits + 1 + k by omega, Nat.pow_add]
    exact Nat.mul_lt_mul_of_pos_right hhigh (by positivity)

theorem bits_mul_pow (k : Nat) :
    f.bits (significand * 2 ^ k) = k * 2 ^ f.fractionBits + significand := by
  unfold bits
  simp only [Nat.pow_eq]
  rw [log2_mul_pow hlow hhigh, Nat.add_sub_cancel_left, Nat.mul_div_cancel _ (by positivity)]

theorem units_add (k : Nat) :
    f.units (k * 2 ^ f.fractionBits + significand) = significand * 2 ^ k := by
  obtain ⟨fraction, rfl⟩ := Nat.exists_eq_add_of_le hlow
  have hfraction : fraction < 2 ^ f.fractionBits := by
    rw [Nat.pow_succ] at hhigh
    omega
  have hsplit : k * 2 ^ f.fractionBits + (2 ^ f.fractionBits + fraction) =
      fraction + (k + 1) * 2 ^ f.fractionBits := by ring
  have hexponent : (fraction + (k + 1) * 2 ^ f.fractionBits) / 2 ^ f.fractionBits = k + 1 := by
    rw [Nat.add_mul_div_right _ _ (by positivity), Nat.div_eq_of_lt hfraction, Nat.zero_add]
  unfold units
  simp only [Nat.pow_eq]
  rw [hsplit, hexponent, if_neg (Nat.succ_ne_zero k), Nat.add_mul_mod_self_right,
    Nat.mod_eq_of_lt hfraction, Nat.add_sub_cancel]

end Normal

theorem bits_of_lt {u : Nat} (h : u < 2 ^ f.fractionBits) : f.bits u = u := by
  have hlog : u.log2 - f.fractionBits = 0 := by
    rcases Nat.eq_zero_or_pos u with rfl | hpos
    · simp
    · have := (Nat.log2_lt hpos.ne').mpr h
      omega
  unfold bits
  simp [hlog]

theorem units_of_lt {bits : Nat} (h : bits < 2 ^ f.fractionBits) : f.units bits = bits := by
  unfold units
  simp [Nat.div_eq_of_lt h, Nat.mod_eq_of_lt h]

/-- **A magnitude of the format is the one of its bits.** -/
theorem units_bits {u : Nat} (h : f.Holds u) : f.units (f.bits u) = u := by
  rcases h.forms with hsmall | ⟨significand, k, hlow, hhigh, rfl⟩
  · rw [bits_of_lt hsmall, units_of_lt hsmall]
  · rw [bits_mul_pow hlow hhigh, units_add hlow hhigh]

/-- The bits of a finite magnitude leave the sign bit free. -/
theorem bits_lt_signBit {u : Nat} (h : f.Holds u) (hu : u < f.infinity) : f.bits u < f.signBit := by
  simp only [signBit, infinity, Nat.pow_eq, Nat.pow_add] at hu ⊢
  have hpos : 0 < 2 ^ f.fractionBits := by positivity
  rcases h.forms with hsmall | ⟨significand, k, hlow, hhigh, rfl⟩
  · rw [bits_of_lt hsmall]
    exact Nat.lt_of_lt_of_le hsmall (Nat.le_mul_of_pos_right _ (by positivity))
  · have hk : k < 2 ^ f.exponentBits - 2 := by
      have hpow : 2 ^ f.fractionBits * 2 ^ k < 2 ^ f.fractionBits * 2 ^ (2 ^ f.exponentBits - 2) :=
        Nat.lt_of_le_of_lt (Nat.mul_le_mul_right _ hlow) (by rwa [Nat.mul_comm (2 ^ f.fractionBits)])
      exact (Nat.pow_lt_pow_iff_right Nat.one_lt_two).mp (Nat.lt_of_mul_lt_mul_left hpow)
    rw [bits_mul_pow hlow hhigh]
    calc k * 2 ^ f.fractionBits + significand < k * 2 ^ f.fractionBits + 2 ^ (f.fractionBits + 1) := by
          omega
      _ = 2 ^ f.fractionBits * (k + 2) := by ring
      _ ≤ 2 ^ f.fractionBits * 2 ^ f.exponentBits := Nat.mul_le_mul_left _ (by omega)

/-! ## Rounding -/

theorem round_one (num : Nat) : f.round num 1 =
    min (roundHalfEven num (2 ^ (num.log2 - f.fractionBits)) * 2 ^ (num.log2 - f.fractionBits))
      f.infinity := by
  unfold round
  simp

theorem round_zero (f : FloatFormat) : f.round 0 1 = 0 := by
  rw [round_one]
  simp [roundHalfEven]

theorem round_of_holds {num : Nat} (h : f.Holds num) (hnum : num < f.infinity) :
    f.round num 1 = num := by
  obtain ⟨quotient, hquotient⟩ := h
  rw [Nat.mul_comm] at hquotient
  have hround : roundHalfEven num (2 ^ (num.log2 - f.fractionBits)) = quotient := by
    nth_rewrite 1 [hquotient]
    exact roundHalfEven_mul quotient (by positivity)
  rw [round_one, hround, ← hquotient, Nat.min_eq_left hnum.le]

/-- **What rounding gives**: a magnitude of the format, with an error of half a unit of the last place
at the most. -/
theorem round_spec {num : Nat} (hnum : 2 * num < f.infinity) :
    f.Holds (f.round num 1) ∧ f.round num 1 < f.infinity ∧
      2 ^ (f.fractionBits + 1) * num ≤ 2 ^ (f.fractionBits + 1) * f.round num 1 + num ∧
      2 ^ (f.fractionBits + 1) * f.round num 1 ≤ 2 ^ (f.fractionBits + 1) * num + num := by
  rcases Nat.lt_or_ge num (2 ^ f.fractionBits) with hsmall | hlarge
  · have hholds : f.Holds num := by
      simpa using holds_mul_pow (f := f) (k := 0) (by rw [Nat.pow_succ]; omega)
    rw [round_of_holds hholds (by omega)]
    exact ⟨hholds, by omega, Nat.le_add_right _ _, Nat.le_add_right _ _⟩
  have hne : num ≠ 0 := (Nat.lt_of_lt_of_le (by positivity) hlarge).ne'
  obtain ⟨k, hk⟩ := Nat.exists_eq_add_of_le ((Nat.le_log2 hne).mpr hlarge)
  have hlow := Nat.log2_self_le hne
  have hhigh := Nat.lt_log2_self (n := num)
  rw [hk, Nat.pow_add] at hlow
  rw [hk, show f.fractionBits + k + 1 = f.fractionBits + 1 + k by omega, Nat.pow_add] at hhigh
  have hquotient := roundHalfEven_le_of_lt hhigh
  obtain ⟨hbelow, habove⟩ := roundHalfEven_near num (show 0 < 2 ^ k by positivity)
  have hstep : 2 ^ k ≤ num := Nat.le_trans (Nat.le_mul_of_pos_left _ (by positivity)) hlow
  have hfinite : roundHalfEven num (2 ^ k) * 2 ^ k < f.infinity := by omega
  rw [round_one, hk, Nat.add_sub_cancel_left, Nat.min_eq_left hfinite.le]
  have hholds := holds_mul_pow hquotient k
  generalize roundHalfEven num (2 ^ k) * 2 ^ k = rounded at hfinite hholds hbelow habove ⊢
  refine ⟨hholds, hfinite, ?_, ?_⟩
  · calc 2 ^ (f.fractionBits + 1) * num = 2 ^ f.fractionBits * (2 * num) := by ring
      _ ≤ 2 ^ f.fractionBits * (2 * rounded + 2 ^ k) := Nat.mul_le_mul_left _ hbelow
      _ = 2 ^ (f.fractionBits + 1) * rounded + 2 ^ f.fractionBits * 2 ^ k := by ring
      _ ≤ 2 ^ (f.fractionBits + 1) * rounded + num := Nat.add_le_add_left hlow _
  · calc 2 ^ (f.fractionBits + 1) * rounded = 2 ^ f.fractionBits * (2 * rounded) := by ring
      _ ≤ 2 ^ f.fractionBits * (2 * num + 2 ^ k) := Nat.mul_le_mul_left _ habove
      _ = 2 ^ (f.fractionBits + 1) * num + 2 ^ f.fractionBits * 2 ^ k := by ring
      _ ≤ 2 ^ (f.fractionBits + 1) * num + num := Nat.add_le_add_left hlow _

/-! ## Values -/

/-- **The number of a bit pattern.** -/
def value (f : FloatFormat) (pattern : Nat) : ℚ :=
  (if pattern < f.signBit then 1 else -1) * f.units (pattern % f.signBit) / f.one

theorem value_bits {u : Nat} (h : f.Holds u) (hu : u < f.infinity) :
    f.value (f.bits u) = u / f.one := by
  have hbits := bits_lt_signBit h hu
  rw [value, if_pos hbits, Nat.mod_eq_of_lt hbits, units_bits h, one_mul]

/-- **A whole number rounded**: itself if its significand fits, and else near to it. -/
theorem value_round {n : Nat} (hn : 2 * (n * f.one) < f.infinity) :
    |f.value (f.bits (f.round (n * f.one) 1)) - n| ≤ n / 2 ^ (f.fractionBits + 1) ∧
      (n ≤ 2 ^ (f.fractionBits + 1) → f.value (f.bits (f.round (n * f.one) 1)) = n) := by
  have hone : (0 : ℚ) < f.one := by exact_mod_cast f.one_pos
  obtain ⟨hholds, hfinite, hbelow, habove⟩ := round_spec hn
  rw [value_bits hholds hfinite]
  constructor
  · have hbelow' : (2 : ℚ) ^ (f.fractionBits + 1) * (n * f.one) ≤
        2 ^ (f.fractionBits + 1) * f.round (n * f.one) 1 + n * f.one := by exact_mod_cast hbelow
    have habove' : (2 : ℚ) ^ (f.fractionBits + 1) * f.round (n * f.one) 1 ≤
        2 ^ (f.fractionBits + 1) * (n * f.one) + n * f.one := by exact_mod_cast habove
    rw [abs_le]
    constructor
    · field_simp
      linarith
    · field_simp
      linarith
  · intro hle
    have hsame : f.round (n * f.one) 1 = n * f.one := by
      apply round_of_holds
      · exact holds_mul_pow hle f.unitExponent
      · omega
    rw [hsame]
    push_cast
    field_simp

end FloatFormat

end StackCompiler
