import Mathlib.Data.List.Basic
import Mathlib.Data.Nat.Digits.Defs
import StackCompiler.Numeral.Digits

/-!
# Numbers and their digits

The digits of a number in a base are read back as the number in the same base, and as a larger one in a
larger base.

* `Base.ofDigits_eq`: what digits denote, as mathematics has it.
* `Base.ofDigits_toDigits`: the digits of a number denote it.
* `Base.le_ofDigits_toDigits`, `Base.gap_ofDigits_toDigits`: the same digits in a larger base.
-/

namespace StackCompiler

theorem digitValue_digitChar : ∀ n < 16, digitValue n.digitChar = some n := by decide

namespace Base

/-! ## What digits denote -/

/-- Digits denote the sum of their values, each times its power of the base. -/
theorem ofDigits_eq (base : Base) (digits : List Char) :
    base.ofDigits digits =
      Nat.ofDigits base.radix (digits.reverse.map fun c => (digitValue c).getD 0) := by
  rw [ofDigits, List.foldl_eq_foldr_reverse]
  induction digits.reverse with
  | nil => rfl
  | cons c digits ih =>
    rw [List.map_cons, Nat.ofDigits_cons, List.foldr_cons, ih, Nat.mul_comm, Nat.add_comm]

theorem ofDigits_lt {base : Base} {digits : List Char} (h : ∀ c ∈ digits, base.isDigit c = true) :
    base.ofDigits digits < base.radix ^ digits.length := by
  have hvalues : ∀ value ∈ digits.reverse.map fun c => (digitValue c).getD 0, value < base.radix := by
    intro value hvalue
    obtain ⟨c, hc, rfl⟩ := List.mem_map.mp hvalue
    have hdigit := h c (List.mem_reverse.mp hc)
    unfold isDigit at hdigit
    cases hdigit' : digitValue c with
    | none => simp [hdigit'] at hdigit
    | some v => simpa [hdigit'] using hdigit
  have hradix : 1 < base.radix := by cases base <;> decide
  rw [ofDigits_eq]
  simpa using Nat.ofDigits_lt_base_pow_length hradix hvalues

theorem isDigit_of_digitValue {base : Base} {c : Char} {value : Nat}
    (h : digitValue c = some value) (hvalue : value < base.radix) : base.isDigit c = true := by
  simp [isDigit, h, hvalue]

/-! ## Digits of one base read in another -/

theorem one_lt_radix (base : Base) : 1 < base.radix := by cases base <;> decide

theorem radix_le (base : Base) : base.radix ≤ 16 := by cases base <;> decide

theorem mod_lt_radix (base : Base) (n : Nat) : n % base.radix < base.radix :=
  Nat.mod_lt n (Nat.zero_lt_of_lt base.one_lt_radix)

theorem one_le_div_radix {base : Base} {n : Nat} (h : base.radix ≤ n) : 1 ≤ n / base.radix :=
  (Nat.one_le_div_iff (Nat.zero_lt_of_lt base.one_lt_radix)).mpr h

/-- **Induction on the digits of a number**, the last one added to those before it. -/
@[elab_as_elim]
theorem digits_induction (base : Base) {motive : Nat → Prop}
    (single : ∀ n, n < base.radix → motive n)
    (append : ∀ n, base.radix ≤ n → motive (n / base.radix) → motive n) (n : Nat) : motive n := by
  induction n using Nat.strongRecOn with
  | ind n ih =>
    rcases Nat.lt_or_ge n base.radix with hlt | hge
    · exact single n hlt
    · have hpos : 0 < n := Nat.lt_of_lt_of_le (Nat.zero_lt_of_lt base.one_lt_radix) hge
      exact append n hge (ih _ (Nat.div_lt_self hpos base.one_lt_radix))

variable {spelled read : Base} {n : Nat}

theorem digitValue_of_lt {digit : Nat} (h : digit < spelled.radix) :
    digitValue digit.digitChar = some digit :=
  digitValue_digitChar digit (Nat.lt_of_lt_of_le h spelled.radix_le)

/-- A digit is worth the same in every base. -/
theorem ofDigits_toDigits_of_lt (h : n < spelled.radix) :
    read.ofDigits (Nat.toDigits spelled.radix n) = n := by
  rw [Nat.toDigits_of_lt_base h]
  simp [ofDigits, digitValue_of_lt h]

theorem ofDigits_toDigits_of_le (h : spelled.radix ≤ n) :
    read.ofDigits (Nat.toDigits spelled.radix n) =
      read.ofDigits (Nat.toDigits spelled.radix (n / spelled.radix)) * read.radix +
        n % spelled.radix := by
  rw [Nat.toDigits_of_base_le spelled.one_lt_radix h]
  simp [ofDigits, digitValue_of_lt (spelled.mod_lt_radix n)]

/-- **The digits of a number denote it.** -/
theorem ofDigits_toDigits (base : Base) (n : Nat) :
    base.ofDigits (Nat.toDigits base.radix n) = n := by
  induction n using base.digits_induction with
  | single n hlt => exact ofDigits_toDigits_of_lt hlt
  | append n hge ih =>
    rw [ofDigits_toDigits_of_le hge, ih]
    exact Nat.div_add_mod' n base.radix

/-- In a larger base, digits denote no less. -/
theorem le_ofDigits_toDigits (h : spelled.radix ≤ read.radix) (n : Nat) :
    n ≤ read.ofDigits (Nat.toDigits spelled.radix n) := by
  induction n using spelled.digits_induction with
  | single n hlt => rw [ofDigits_toDigits_of_lt hlt]
  | append n hge ih =>
    rw [ofDigits_toDigits_of_le hge]
    calc n = n / spelled.radix * spelled.radix + n % spelled.radix :=
          (Nat.div_add_mod' n spelled.radix).symm
      _ ≤ _ := Nat.add_le_add_right (Nat.mul_le_mul ih h) _

/-- From two digits on, binary and octal digits denote visibly more in base ten. -/
theorem gap_ofDigits_toDigits (h : spelled.radix ≤ 8) (hn : spelled.radix ≤ n) :
    17 * n ≤ 15 * decimal.ofDigits (Nat.toDigits spelled.radix n) := by
  have hradix : spelled.radix ≤ decimal.radix := Nat.le_trans h (by decide)
  have hfront := le_ofDigits_toDigits hradix (n / spelled.radix)
  have hone := one_le_div_radix hn
  have hdigit := spelled.mod_lt_radix n
  have hsplit := Nat.div_add_mod' n spelled.radix
  have hproduct : n / spelled.radix * spelled.radix ≤ n / spelled.radix * 8 :=
    Nat.mul_le_mul_left _ h
  rw [ofDigits_toDigits_of_le hn, show decimal.radix = 10 from rfl]
  omega

/-! ## Digits as they are written -/

theorem isDigit_of_mem_toDigits {base : Base} {c : Char} (h : c ∈ Nat.toDigits base.radix n) :
    base.isDigit c = true := by
  induction n using base.digits_induction with
  | single n hlt =>
    rw [Nat.toDigits_of_lt_base hlt, List.mem_singleton] at h
    rw [h]
    exact isDigit_of_digitValue (digitValue_of_lt hlt) hlt
  | append n hge ih =>
    have hdigit := base.mod_lt_radix n
    rw [Nat.toDigits_of_base_le base.one_lt_radix hge, List.mem_append, List.mem_singleton] at h
    rcases h with hfront | rfl
    · exact ih hfront
    · exact isDigit_of_digitValue (digitValue_of_lt hdigit) hdigit

/-- Only zero begins with the digit zero. -/
theorem eq_zero_of_head?_toDigits {base : Base}
    (h : (Nat.toDigits base.radix n).head? = some '0') : n = 0 := by
  induction n using base.digits_induction with
  | single n hlt =>
    rw [Nat.toDigits_of_lt_base hlt, List.head?_cons, Option.some.injEq] at h
    have hvalue := digitValue_of_lt hlt
    rw [h] at hvalue
    exact (Option.some.inj hvalue).symm
  | append n hge ih =>
    have hone := one_le_div_radix hge
    rw [Nat.toDigits_of_base_le base.one_lt_radix hge,
      List.head?_append_of_ne_nil _ Nat.toDigits_ne_nil] at h
    have hzero := ih h
    omega

end Base

end StackCompiler
