import Mathlib.Tactic.SplitIfs
import StackCompiler.Text.Utf8

/-!
# Encoding and decoding

The bytes of a character are read as this character, whatever comes behind them. So characters are
read back from their bytes, and nothing in them is taken for a broken piece.

* `Utf8.lead?_two`, `Utf8.lead?_three`, `Utf8.lead?_four`: what first bytes ask of those behind them.
* **`Utf8.next_encodeChar`**: the first character of bytes that begin with those of a character.
* `Utf8.decodeLossy_encode`, `Utf8.decode_encode`: characters are read back from their bytes.
* **`Utf8.encode_decodeLossy_eq_iff`**: the bytes that reading and writing leaves alone.
-/

namespace StackCompiler.Utf8

theorem toNat_ofNat {n : Nat} (h : n < 256) : (UInt8.ofNat n).toNat = n :=
  UInt8.toNat_ofNat_of_lt' h

/-! ## First bytes -/

theorem lead?_one {n : Nat} (h : n < 0x80) :
    lead? (UInt8.ofNat n) = some ⟨0, 0x80, 0xBF, n⟩ := by
  rw [lead?, toNat_ofNat (by omega)]
  exact if_pos h

theorem lead?_two {high : Nat} (hlong : 2 ≤ high) (hhigh : high < 0x20) :
    lead? (UInt8.ofNat (high + 0xC0)) = some ⟨1, 0x80, 0xBF, high⟩ := by
  rw [lead?, toNat_ofNat (by omega)]
  rw [if_neg (by omega), if_neg (by omega), if_pos (by omega), Nat.add_sub_cancel]

/-- The second byte rules out characters that have fewer bytes, and surrogates. -/
theorem lead?_three (high mid : Nat) (hhigh : high < 0x10) (hmid : mid < 0x40)
    (hlong : 0x20 ≤ high * 64 + mid) (hpair : high * 64 + mid < 0x360 ∨ 0x380 ≤ high * 64 + mid) :
    ∃ low top, lead? (UInt8.ofNat (high + 0xE0)) = some ⟨2, low, top, high⟩ ∧
      low ≤ mid + 0x80 ∧ mid + 0x80 ≤ top := by
  rw [lead?, toNat_ofNat (by omega)]
  rw [if_neg (by omega), if_neg (by omega), if_neg (by omega)]
  by_cases hfirst : high = 0
  · subst hfirst
    exact ⟨_, _, rfl, by omega, by omega⟩
  by_cases hpaired : high = 0xD
  · subst hpaired
    exact ⟨_, _, rfl, by omega, by omega⟩
  rw [if_neg (by omega), if_neg (by omega), if_pos (by omega), Nat.add_sub_cancel]
  exact ⟨_, _, rfl, by omega, by omega⟩

/-- The second byte rules out characters that have fewer bytes, and numbers that are too large. -/
theorem lead?_four (high mid : Nat) (hmid : mid < 0x40) (hlong : 0x10 ≤ high * 64 + mid)
    (htop : high * 64 + mid < 0x110) :
    ∃ low top, lead? (UInt8.ofNat (high + 0xF0)) = some ⟨3, low, top, high⟩ ∧
      low ≤ mid + 0x80 ∧ mid + 0x80 ≤ top := by
  rw [lead?, toNat_ofNat (by omega)]
  rw [if_neg (by omega), if_neg (by omega), if_neg (by omega), if_neg (by omega), if_neg (by omega),
    if_neg (by omega)]
  by_cases hfirst : high = 0
  · subst hfirst
    exact ⟨_, _, rfl, by omega, by omega⟩
  by_cases hlast : high = 4
  · subst hlast
    exact ⟨_, _, rfl, by omega, by omega⟩
  rw [if_neg (by omega), if_pos (by omega), Nat.add_sub_cancel]
  exact ⟨_, _, rfl, by omega, by omega⟩

/-! ## Characters -/

/-- A byte that goes on with a character. -/
theorem complete_cons {tails low top code n : Nat} {rest : List UInt8} (hlow : low ≤ n + 0x80)
    (htop : n + 0x80 ≤ top) (hn : n < 0x80) :
    complete (tails + 1) low top code (UInt8.ofNat (n + 0x80) :: rest) =
      complete tails 0x80 0xBF (code * 64 + n) rest := by
  rw [complete, toNat_ofNat (by omega), if_pos ⟨hlow, htop⟩, Nat.add_sub_cancel]

/-- **The bytes of a character are read as this character**, whatever comes behind them. -/
theorem next_encodeChar (c : Char) (more : List UInt8) :
    ∃ b tail, String.utf8EncodeChar c = b :: tail ∧ next b (tail ++ more) = (some c, more) := by
  have hvalid : c.val.toNat < 0xD800 ∨ 0xDFFF < c.val.toNat ∧ c.val.toNat < 0x110000 := c.valid
  have hc : Char.ofNat c.val.toNat = c := Char.ofNat_toNat c
  unfold String.utf8EncodeChar
  generalize c.val.toNat = v at hvalid hc ⊢
  have hlast : v % 64 < 0x40 := Nat.mod_lt _ (by decide)
  dsimp only
  split_ifs with hone htwo hthree
  · refine ⟨_, [], rfl, ?_⟩
    rw [next, lead?_one (by omega), ← hc]
    rfl
  · refine ⟨_, _, rfl, ?_⟩
    rw [next, lead?_two (by omega) (by omega)]
    dsimp only [List.cons_append, List.nil_append]
    rw [complete_cons (by omega) (by omega) (by omega), complete,
      show v / 64 % 32 * 64 + v % 64 = v by omega, hc]
  · obtain ⟨low, top, hlead, hlow, htop⟩ := lead?_three (v / 4096 % 16) (v / 64 % 64) (by omega)
      (by omega) (by omega) (by omega)
    refine ⟨_, _, rfl, ?_⟩
    rw [next, hlead]
    dsimp only [List.cons_append, List.nil_append]
    rw [complete_cons hlow htop (by omega), complete_cons (by omega) (by omega) (by omega), complete,
      show (v / 4096 % 16 * 64 + v / 64 % 64) * 64 + v % 64 = v by omega, hc]
  · obtain ⟨low, top, hlead, hlow, htop⟩ := lead?_four (v / 262144 % 8) (v / 4096 % 64) (by omega)
      (by omega) (by omega)
    refine ⟨_, _, rfl, ?_⟩
    rw [next, hlead]
    dsimp only [List.cons_append, List.nil_append]
    rw [complete_cons hlow htop (by omega), complete_cons (by omega) (by omega) (by omega),
      complete_cons (by omega) (by omega) (by omega), complete,
      show ((v / 262144 % 8 * 64 + v / 4096 % 64) * 64 + v / 64 % 64) * 64 + v % 64 = v by omega, hc]

/-- The bytes of a character never have their five upper bits set. -/
theorem lt_of_mem_encodeChar {c : Char} {b : UInt8} (h : b ∈ String.utf8EncodeChar c) :
    b.toNat < 0xF8 := by
  unfold String.utf8EncodeChar at h
  generalize c.val.toNat = v at h
  dsimp only at h
  split_ifs at h with hone htwo hthree <;>
    simp only [List.mem_cons, List.not_mem_nil, or_false] at h
  · rw [h, toNat_ofNat (by omega)]
    omega
  · rcases h with rfl | rfl <;> rw [toNat_ofNat (by omega)] <;> omega
  · rcases h with rfl | rfl | rfl <;> rw [toNat_ofNat (by omega)] <;> omega
  · rcases h with rfl | rfl | rfl | rfl <;> rw [toNat_ofNat (by omega)] <;> omega

/-! ## Texts -/

theorem lt_of_mem_encode {cs : List Char} {b : UInt8} (h : b ∈ encode cs) : b.toNat < 0xF8 := by
  obtain ⟨c, -, hc⟩ := List.mem_flatMap.mp h
  exact lt_of_mem_encodeChar hc

/-- The bytes of a text begin with those of its first character. -/
theorem encode_cons (c : Char) (cs : List Char) :
    ∃ b rest, encode (c :: cs) = b :: rest ∧ next b rest = (some c, encode cs) := by
  obtain ⟨b, tail, hbytes, hnext⟩ := next_encodeChar c (encode cs)
  refine ⟨b, tail ++ encode cs, ?_, hnext⟩
  rw [encode, List.flatMap_cons, hbytes]
  rfl

/-- Characters are read back from their bytes. -/
theorem decodeLossy_encode (cs : List Char) : decodeLossy (encode cs) = cs := by
  induction cs with
  | nil =>
    rw [encode, List.flatMap_nil, decodeLossy]
  | cons c cs ih =>
    obtain ⟨b, rest, hencode, hnext⟩ := encode_cons c cs
    rw [hencode, decodeLossy, hnext]
    dsimp only
    rw [ih, Option.getD_some]

/-- The bytes of a text are decoded as this text, whatever comes behind them. -/
theorem decode_encode_append (cs : List Char) (more : List UInt8) :
    decode (encode cs ++ more) = (cs ++ (decode more).1, (decode more).2) := by
  induction cs with
  | nil => rfl
  | cons c cs ih =>
    obtain ⟨b, tail, hbytes, hnext⟩ := next_encodeChar c (encode cs ++ more)
    have hencode : encode (c :: cs) ++ more = b :: (tail ++ (encode cs ++ more)) := by
      rw [encode, List.flatMap_cons, hbytes, ← encode]
      simp
    rw [hencode, decode, hnext]
    dsimp only
    rw [ih]
    rfl

/-- The bytes of a text are decoded to their end. -/
theorem decode_encode (cs : List Char) : decode (encode cs) = (cs, []) := by
  have h := decode_encode_append cs []
  rw [List.append_nil] at h
  rw [h, decode, List.append_nil]

/-- **Reading and writing leaves bytes alone exactly if they are a text.** -/
theorem encode_decodeLossy_eq_iff {bytes : List UInt8} :
    encode (decodeLossy bytes) = bytes ↔ ∃ cs, bytes = encode cs := by
  constructor
  · intro h
    exact ⟨decodeLossy bytes, h.symm⟩
  · rintro ⟨cs, rfl⟩
    rw [decodeLossy_encode]

end StackCompiler.Utf8
