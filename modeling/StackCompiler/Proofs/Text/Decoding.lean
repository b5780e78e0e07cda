import Mathlib.Tactic.SplitIfs
import StackCompiler.Proofs.Text.Utf8
import StackCompiler.Proofs.Token.Places

/-!
# Bytes that are a text

The ranges that a first byte asks for are exactly those of characters: whatever is read as a character
is what this character is written as. So nothing is lost in decoding, and it stops behind the longest
beginning that is a text.

* `Utf8.encodeChar_one`, …, `Utf8.encodeChar_four`: the bytes of a character of each length.
* `Utf8.Lead.Opens`: the first bytes there are, and what they ask for.
* **`Utf8.eq_encodeChar_of_next`**: what is read as a character are its bytes.
* `Utf8.encode_decode`, **`Utf8.isLongest_decode`**: what decoding reads of any bytes.
* **`Lexer.ofBytes_exact`**: which bytes can be read, and how all others are refused.
-/

namespace StackCompiler

namespace Utf8

/-! ## Characters from their numbers -/

/-- A number that is a code point is the number of its character. -/
theorem toNat_val_ofNat {v : Nat} (h : v.isValidChar) : (Char.ofNat v).val.toNat = v := by
  rw [Char.ofNat, dif_pos h]
  rfl

theorem encodeChar_one {v : Nat} (h : v < 0x80) :
    String.utf8EncodeChar (Char.ofNat v) = [UInt8.ofNat v] := by
  rw [String.utf8EncodeChar, toNat_val_ofNat (.inl (by omega)), if_pos (by omega)]

theorem encodeChar_two {high low : Nat} (hlong : 2 ≤ high) (hhigh : high < 0x20) (hlow : low < 0x40) :
    String.utf8EncodeChar (Char.ofNat (high * 64 + low)) =
      [UInt8.ofNat (high + 0xC0), UInt8.ofNat (low + 0x80)] := by
  rw [String.utf8EncodeChar, toNat_val_ofNat (.inl (by omega)), if_neg (by omega),
    if_pos (by omega), show (high * 64 + low) / 64 % 32 = high by omega,
    show (high * 64 + low) % 64 = low by omega]

theorem encodeChar_three {high mid low : Nat} (hhigh : high < 0x10) (hmid : mid < 0x40)
    (hlow : low < 0x40) (hlong : 0x20 ≤ high * 64 + mid)
    (hpair : high * 64 + mid < 0x360 ∨ 0x380 ≤ high * 64 + mid) :
    String.utf8EncodeChar (Char.ofNat ((high * 64 + mid) * 64 + low)) =
      [UInt8.ofNat (high + 0xE0), UInt8.ofNat (mid + 0x80), UInt8.ofNat (low + 0x80)] := by
  have hvalid : ((high * 64 + mid) * 64 + low).isValidChar := by
    unfold Nat.isValidChar
    omega
  rw [String.utf8EncodeChar, toNat_val_ofNat hvalid, if_neg (by omega),
    if_neg (by omega), if_pos (by omega),
    show ((high * 64 + mid) * 64 + low) / 4096 % 16 = high by omega,
    show ((high * 64 + mid) * 64 + low) / 64 % 64 = mid by omega,
    show ((high * 64 + mid) * 64 + low) % 64 = low by omega]

theorem encodeChar_four {high mid next low : Nat} (hmid : mid < 0x40) (hnext : next < 0x40)
    (hlow : low < 0x40) (hlong : 0x10 ≤ high * 64 + mid) (htop : high * 64 + mid < 0x110) :
    String.utf8EncodeChar (Char.ofNat (((high * 64 + mid) * 64 + next) * 64 + low)) =
      [UInt8.ofNat (high + 0xF0), UInt8.ofNat (mid + 0x80), UInt8.ofNat (next + 0x80),
        UInt8.ofNat (low + 0x80)] := by
  have hvalid : (((high * 64 + mid) * 64 + next) * 64 + low).isValidChar := .inr (by omega)
  rw [String.utf8EncodeChar, toNat_val_ofNat hvalid, if_neg (by omega),
    if_neg (by omega), if_neg (by omega),
    show (((high * 64 + mid) * 64 + next) * 64 + low) / 262144 % 8 = high by omega,
    show (((high * 64 + mid) * 64 + next) * 64 + low) / 4096 % 64 = mid by omega,
    show (((high * 64 + mid) * 64 + next) * 64 + low) / 64 % 64 = next by omega,
    show (((high * 64 + mid) * 64 + next) * 64 + low) % 64 = low by omega]

/-! ## Bytes that are read as a character -/

/-- **What a first byte is**, by the number of bytes behind it. The range of the second byte rules out
characters that have fewer bytes, surrogates, and numbers that are too large. -/
inductive Lead.Opens : Lead → Nat → Prop where
  | one {low high n : Nat} (hn : n < 0x80) : Opens ⟨0, low, high, n⟩ n
  | two {n : Nat} (hlong : 2 ≤ n) (hn : n < 0x20) : Opens ⟨1, 0x80, 0xBF, n⟩ (n + 0xC0)
  | three {low high n : Nat} (hn : n < 0x10) (hlow : 0x80 ≤ low) (hhigh : high ≤ 0xBF)
      (hlong : n = 0 → 0xA0 ≤ low) (hpair : n = 0xD → high ≤ 0x9F) :
      Opens ⟨2, low, high, n⟩ (n + 0xE0)
  | four {low high n : Nat} (hn : n ≤ 4) (hlow : 0x80 ≤ low) (hhigh : high ≤ 0xBF)
      (hlong : n = 0 → 0x90 ≤ low) (htop : n = 4 → high ≤ 0x8F) :
      Opens ⟨3, low, high, n⟩ (n + 0xF0)

theorem opens_of_lead? {b : UInt8} {lead : Lead} (h : lead? b = some lead) : lead.Opens b.toNat := by
  rw [lead?] at h
  generalize b.toNat = n at h
  split_ifs at h with hone htwo hthree hlong hpair hfour hlong' htop' hlast
  · cases h
    exact .one hone
  · obtain ⟨m, rfl⟩ := Nat.exists_eq_add_of_le' (show 0xC0 ≤ n by omega)
    cases h
    rw [Nat.add_sub_cancel]
    exact .two (by omega) (by omega)
  · cases h
    exact hlong ▸ .three (by decide) (by decide) (by decide) (by decide) (by decide)
  · cases h
    exact hpair ▸ .three (by decide) (by decide) (by decide) (by decide) (by decide)
  · obtain ⟨m, rfl⟩ := Nat.exists_eq_add_of_le' (show 0xE0 ≤ n by omega)
    cases h
    rw [Nat.add_sub_cancel]
    exact .three (by omega) (by decide) (by decide) (by omega) (by omega)
  · cases h
    exact hlong' ▸ .four (by decide) (by decide) (by decide) (by decide) (by decide)
  · obtain ⟨m, rfl⟩ := Nat.exists_eq_add_of_le' (show 0xF0 ≤ n by omega)
    cases h
    rw [Nat.add_sub_cancel]
    exact .four (by omega) (by decide) (by decide) (by omega) (by omega)
  · cases h
    exact hlast ▸ .four (by decide) (by decide) (by decide) (by decide) (by decide)

/-- Bytes that complete a character begin with one that fits. -/
theorem of_complete_succ {tails low high code : Nat} {rest more : List UInt8} {c : Char}
    (hlow : 0x80 ≤ low) (h : complete (tails + 1) low high code rest = (some c, more)) :
    ∃ n rest', rest = UInt8.ofNat (n + 0x80) :: rest' ∧ low ≤ n + 0x80 ∧ n + 0x80 ≤ high ∧
      complete tails 0x80 0xBF (code * 64 + n) rest' = (some c, more) := by
  cases rest with
  | nil => cases h
  | cons b rest =>
    rw [complete] at h
    split_ifs at h with hrange
    · have hb : b.toNat - 0x80 + 0x80 = b.toNat := by omega
      refine ⟨b.toNat - 0x80, rest, ?_, by omega, by omega, h⟩
      rw [hb, UInt8.ofNat_toNat]
    · cases h

/-- **What is read as a character are its bytes.** -/
theorem eq_encodeChar_of_next {b : UInt8} {rest more : List UInt8} {c : Char}
    (h : next b rest = (some c, more)) : b :: rest = String.utf8EncodeChar c ++ more := by
  unfold next at h
  split at h
  · cases h
  · next lead hlead =>
    have hopens := opens_of_lead? hlead
    rw [← UInt8.ofNat_toNat (x := b)]
    generalize b.toNat = first at hopens
    cases hopens with
    | one hn =>
      cases h
      rw [encodeChar_one hn]
      rfl
    | two hlong hn =>
      dsimp only at h
      obtain ⟨low, rest, rfl, -, hlow, h⟩ := of_complete_succ (by decide) h
      cases h
      rw [encodeChar_two hlong hn (by omega)]
      rfl
    | @three least top n hn hleast htop hlong hpair =>
      dsimp only at h
      obtain ⟨mid, rest, rfl, hmid, hmid', h⟩ := of_complete_succ hleast h
      obtain ⟨low, rest, rfl, -, hlow, h⟩ := of_complete_succ (by decide) h
      cases h
      rw [encodeChar_three hn (by omega) (by omega) (by omega) (by omega)]
      rfl
    | @four least top n hn hleast htop hlong hlarge =>
      dsimp only at h
      obtain ⟨mid, rest, rfl, hmid, hmid', h⟩ := of_complete_succ hleast h
      obtain ⟨third, rest, rfl, -, hthird, h⟩ := of_complete_succ (by decide) h
      obtain ⟨low, rest, rfl, -, hlow, h⟩ := of_complete_succ (by decide) h
      cases h
      rw [encodeChar_four (by omega) (by omega) (by omega) (by omega) (by omega)]
      rfl

/-! ## The longest decodable beginning -/

/-- **Nothing is lost in decoding.** -/
theorem encode_decode (bytes : List UInt8) :
    encode (decode bytes).1 ++ (decode bytes).2 = bytes := by
  fun_induction decode bytes with
  | case1 => rfl
  | case2 b rest step hnone => rfl
  | case3 b rest step c hc cs undecoded hrest ih =>
    have hnext : next b rest = (some c, step.2) := Prod.ext hc rfl
    rw [eq_encodeChar_of_next hnext, ← ih, hrest, encode, List.flatMap_cons, List.append_assoc]
    rfl

/-- **The longest beginning that is a text.** -/
structure IsLongest (text : List Char) (bytes : List UInt8) : Prop where
  isPrefix : encode text <+: bytes
  length_le : ∀ other, encode other <+: bytes → (encode other).length ≤ (encode text).length

/-- **Decoding reads the longest beginning that is a text.** -/
theorem isLongest_decode (bytes : List UInt8) : IsLongest (decode bytes).1 bytes := by
  refine ⟨⟨(decode bytes).2, encode_decode bytes⟩, ?_⟩
  rintro other ⟨more, rfl⟩
  rw [decode_encode_append, encode, encode, List.flatMap_append, List.length_append]
  exact Nat.le_add_right _ _

/-- Decoding comes to the end of exactly those bytes that are a text. -/
theorem decode_eq_nil_iff {bytes : List UInt8} :
    (decode bytes).2 = [] ↔ encode (decode bytes).1 = bytes := by
  constructor
  · intro h
    simpa [h] using encode_decode bytes
  · intro h
    rw [← h, decode_encode]

end Utf8

namespace Lexer

open Utf8

/-- The number of bytes before the broken character is that of the text before it. -/
theorem ofBytes_eq (bytes : List UInt8) : ofBytes bytes = if encode (decode bytes).1 = bytes
    then .ok (ofChars (decode bytes).1)
    else .error ⟨.invalidUtf8 (encode (decode bytes).1).length, .behind (decode bytes).1⟩ := by
  have hlength := congrArg List.length (encode_decode bytes)
  have hend : (decode bytes).2 = [] ↔ _ := decode_eq_nil_iff
  have hplace := Location.advanceBy_behind [] (decode bytes).1
  unfold ofBytes
  split
  · next text hdecode =>
    rw [hdecode] at hend ⊢
    rw [if_pos (hend.mp rfl)]
  · next text undecoded hne hdecode =>
    rw [hdecode] at hend hlength hplace ⊢
    rw [if_neg fun h => hne (hend.mpr h)]
    rw [List.length_append] at hlength
    rw [List.nil_append] at hplace
    rw [← hplace, ← hlength, Nat.add_sub_cancel]
    rfl

/-- **Bytes are read exactly if they are a text**, and then as this text. All others are refused behind
the longest beginning that is a text: its bytes are counted in the message, and its characters make up
the place. -/
theorem ofBytes_exact (bytes : List UInt8) :
    (∀ lexer, ofBytes bytes = .ok lexer ↔ ∃ text, encode text = bytes ∧ lexer = ofChars text) ∧
    ((∀ text, encode text ≠ bytes) → ∃ text e, IsLongest text bytes ∧ ofBytes bytes = .error e ∧
      e.cause.kind = .invalidUtf8 ∧
      e.cause.message = "invalid utf-8 sequence at byte offset " ++ toString (encode text).length ∧
      e.location = .behind text) := by
  rw [ofBytes_eq]
  refine ⟨fun lexer => ⟨fun h => ?_, ?_⟩, fun hnone => ?_⟩
  · split_ifs at h with hend
    cases h
    exact ⟨_, hend, rfl⟩
  · rintro ⟨text, rfl, rfl⟩
    rw [decode_encode, if_pos rfl]
  · rw [if_neg (hnone _)]
    exact ⟨_, _, isLongest_decode bytes, rfl, rfl, rfl, rfl⟩

/-- The third character, on the second line, lacks its last byte. -/
theorem ofBytes_truncated :
    (∀ text, encode text ≠ [0xC3, 0xA9, 0x0A, 0xE2, 0x82]) ∧
      ofBytes [0xC3, 0xA9, 0x0A, 0xE2, 0x82] = .error ⟨.invalidUtf8 3, ⟨2, 1⟩⟩ ∧
      ∃ text, IsLongest text [0xC3, 0xA9, 0x0A, 0xE2, 0x82] ∧ Location.behind text = ⟨2, 1⟩ := by
  obtain ⟨hok, herror⟩ := ofBytes_exact [0xC3, 0xA9, 0x0A, 0xE2, 0x82]
  have hrefused : ofBytes [0xC3, 0xA9, 0x0A, 0xE2, 0x82] = .error ⟨.invalidUtf8 3, ⟨2, 1⟩⟩ := by
    decide +kernel
  have hnone : ∀ text, encode text ≠ [0xC3, 0xA9, 0x0A, 0xE2, 0x82] := by
    intro text htext
    have h := (hok (ofChars text)).mpr ⟨text, htext, rfl⟩
    rw [hrefused] at h
    cases h
  obtain ⟨text, e, hlongest, he, -, -, hplace⟩ := herror hnone
  rw [hrefused] at he
  cases he
  exact ⟨hnone, hrefused, text, hlongest, hplace.symm⟩

end Lexer

end StackCompiler
