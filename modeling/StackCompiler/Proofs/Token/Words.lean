import Mathlib.Tactic.SplitIfs
import StackCompiler.Proofs.Text.Utf8
import StackCompiler.Proofs.Token.Locality
import StackCompiler.Proofs.Token.Texts

/-!
# Words

The fixed words are found by halving a table that ascends, so every entry of it is found, and nothing
else. A run of word characters up to a place where a token may end is one token, whose kind is that of
the table, or an identifier.

* `Ascending`, **`Ascending.searchSorted_eq_some`**: looking up in an ascending table.
* `lt_iff_encode_lt`: the order of texts is that of their bytes.
* `IsWord`, **`IsWord.reads`**: a word in a text.
* **`word_classified`**: the kinds of all words.
-/

namespace StackCompiler

/-! ## Looking up -/

section Search

variable {α : Type} {table : Array (String × α)}

/-- **The keys of the table ascend.** -/
def Ascending (table : Array (String × α)) : Prop :=
  (table.toList.map Prod.fst).Pairwise (· < ·)

section Positions

variable {i j : Nat} {entry entry' : String × α}

theorem Ascending.lt (h : Ascending table) (hij : i < j) (hi : table[i]? = some entry)
    (hj : table[j]? = some entry') : entry.1 < entry'.1 := by
  obtain ⟨hisize, rfl⟩ := Array.getElem?_eq_some_iff.mp hi
  obtain ⟨hjsize, rfl⟩ := Array.getElem?_eq_some_iff.mp hj
  exact List.pairwise_iff_getElem.mp (List.pairwise_map.mp h) i j hisize hjsize hij

theorem Ascending.position_lt (h : Ascending table) (hi : table[i]? = some entry)
    (hj : table[j]? = some entry') (hkey : entry.1 < entry'.1) : i < j := by
  rcases Nat.lt_trichotomy i j with hless | rfl | hmore
  · exact hless
  · rw [hi] at hj
    cases hj
    exact absurd hkey (String.lt_irrefl _)
  · exact absurd hkey (String.lt_asymm (h.lt hmore hj hi))

theorem Ascending.position_eq (h : Ascending table) (hi : table[i]? = some entry)
    (hj : table[j]? = some entry') (hkey : entry.1 = entry'.1) : i = j := by
  rcases Nat.lt_trichotomy i j with hless | heq | hmore
  · exact absurd (hkey ▸ h.lt hless hi hj) (String.lt_irrefl _)
  · exact heq
  · exact absurd (hkey ▸ h.lt hmore hj hi) (String.lt_irrefl _)

end Positions

/-- **An entry between two positions is found between them.** Halving leaves it there, since all keys
on the other side are smaller, or all are greater. -/
theorem Ascending.searchSorted_eq (h : Ascending table) {key : String} {value : α}
    {i low high : Nat} (hentry : table[i]? = some (key, value)) (hlow : low ≤ i) (hhigh : i < high)
    (hsize : high ≤ table.size) : searchSorted table key low high = some value := by
  fun_induction searchSorted table key low high with
  | case1 low high hlt middle hnone =>
    have hmiddle : middle < table.size := by omega
    rw [Array.getElem?_eq_getElem hmiddle] at hnone
    cases hnone
  | case2 low high hlt middle found hfound =>
    obtain rfl : middle = i := h.position_eq hfound hentry rfl
    rw [hentry] at hfound
    cases hfound
    rfl
  | case3 low high hlt middle entry value hfound hne hless ih =>
    exact ih (h.position_lt hfound hentry hless) hhigh hsize
  | case4 low high hlt middle entry value hfound hne hless ih =>
    have hmore : key < entry :=
      String.not_le.mp fun hle => hne (String.le_antisymm hle (String.not_lt.mp hless))
    exact ih hlow (h.position_lt hentry hfound hmore) (by omega)
  | case5 low high hlt => omega

/-- **Looking up finds exactly the entries of the table.** -/
theorem Ascending.searchSorted_eq_some (h : Ascending table) {key : String} {value : α} :
    searchSorted table key 0 table.size = some value ↔ (key, value) ∈ table := by
  refine ⟨mem_of_searchSorted, fun hmem => ?_⟩
  obtain ⟨i, hi, hentry⟩ := Array.mem_iff_getElem.mp hmem
  exact h.searchSorted_eq (Array.getElem?_eq_some_iff.mpr ⟨hi, hentry⟩) (Nat.zero_le i) hi
    (Nat.le_refl _)

end Search

theorem TokenKind.ascending_reserved : Ascending TokenKind.reserved := by
  have : @Trans String String String LT.lt LT.lt LT.lt := ⟨String.lt_trans⟩
  refine List.IsChain.pairwise ?_
  decide +kernel

/-! ## The order of bytes -/

section Bytes

open Utf8

theorem ofNat_lt_ofNat {m n : Nat} (hm : m < 256) (hn : n < 256) :
    UInt8.ofNat m < UInt8.ofNat n ↔ m < n := by
  rw [UInt8.lt_iff_toNat_lt, toNat_ofNat hm, toNat_ofNat hn]

theorem ofNat_eq_ofNat {m n : Nat} (hm : m < 256) (hn : n < 256) :
    UInt8.ofNat m = UInt8.ofNat n ↔ m = n := by
  rw [← UInt8.toNat_inj, toNat_ofNat hm, toNat_ofNat hn]

/-- **The bytes of a smaller character come first**, whatever stands behind them. -/
theorem encodeChar_lt {c d : Char} (h : c < d) (more more' : List UInt8) :
    String.utf8EncodeChar c ++ more < String.utf8EncodeChar d ++ more' := by
  have hlt : c.val.toNat < d.val.toNat := h
  have htop : d.val.toNat < 0x110000 := by
    rcases d.valid with hlow | hhigh
    · exact Nat.lt_trans hlow (by decide)
    · exact hhigh.2
  unfold String.utf8EncodeChar
  generalize c.val.toNat = v at hlt ⊢
  generalize d.val.toNat = w at hlt htop ⊢
  dsimp only
  -- the bytes behind the first are digits in base 64, and the first that differ decide
  have hlast : v / 64 < w / 64 ∨ v / 64 = w / 64 ∧ v % 64 < w % 64 := by omega
  have hthird : v / 64 < w / 64 →
      v / 4096 < w / 4096 ∨ v / 4096 = w / 4096 ∧ v / 64 % 64 < w / 64 % 64 := by omega
  have hsecond : v / 4096 < w / 4096 →
      v / 262144 < w / 262144 ∨ v / 262144 = w / 262144 ∧ v / 4096 % 64 < w / 4096 % 64 := by omega
  have hfirst : v / 262144 % 8 = v / 262144 ∧ w / 262144 % 8 = w / 262144 := by omega
  split_ifs <;> simp (disch := omega) only [List.cons_append, List.nil_append,
    List.cons_lt_cons_iff, ofNat_lt_ofNat, ofNat_eq_ofNat] <;> omega

theorem encode_lt {cs ds : List Char} (h : cs < ds) : encode cs < encode ds := by
  induction cs generalizing ds with
  | nil =>
    cases ds with
    | nil => exact absurd h (List.lt_irrefl [])
    | cons d ds =>
      obtain ⟨b, rest, hbytes, -⟩ := encode_cons d ds
      rw [hbytes]
      exact List.nil_lt_cons b rest
  | cons c cs ih =>
    cases ds with
    | nil => exact absurd h (List.not_lt_nil _)
    | cons d ds =>
      rw [encode, encode, List.flatMap_cons, List.flatMap_cons]
      rcases List.cons_lt_cons_iff.mp h with hchar | ⟨rfl, hrest⟩
      · exact encodeChar_lt hchar _ _
      · exact List.append_left_lt (ih hrest)

/-- **Texts are in the order of their bytes.** -/
theorem lt_iff_encode_lt {s t : String} : s < t ↔ encode s.toList < encode t.toList := by
  refine ⟨fun h => encode_lt (String.lt_iff.mp h), fun h => ?_⟩
  by_contra hnot
  have hle : t ≤ s := String.not_lt.mp hnot
  by_cases heq : s = t
  · rw [heq] at h
    exact List.lt_irrefl _ h
  · have hlt : t < s := String.not_le.mp fun hge => heq (String.le_antisymm hge hle)
    exact List.lt_asymm h (encode_lt (String.lt_iff.mp hlt))

/-- The table of fixed words ascends in their bytes. -/
theorem TokenKind.ascending_bytes_reserved :
    (TokenKind.reserved.toList.map fun entry => encode entry.1.toList).Pairwise (· < ·) :=
  List.pairwise_map.mpr ((List.pairwise_map.mp ascending_reserved).imp lt_iff_encode_lt.mp)

end Bytes

/-! ## First characters -/

theorem isWordStart_of_isTerminator {c : Char} (h : isTerminator c = true) :
    isWordStart c = false := by
  have hcontinue := isWordContinue_of_isTerminator h
  simp only [isWordContinue, Bool.or_eq_false_iff] at hcontinue
  exact hcontinue.1.1

theorem isWordStart_of_isDigit {c : Char} (h : Base.decimal.isDigit c = true) :
    isWordStart c = false := by
  have hdigits : ∀ n ∈ List.range' 48 10, isWordStart (Char.ofNat n) = false := by decide +kernel
  have hrange : 48 ≤ c.toNat ∧ c.toNat ≤ 57 := by
    unfold Base.isDigit digitValue at h
    split_ifs at h with hdecimal
    · exact hdecimal
    · exact absurd (of_decide_eq_true h) (Nat.not_lt.mpr (Nat.le_add_left 10 _))
    · exact absurd (of_decide_eq_true h) (Nat.not_lt.mpr (Nat.le_add_left 10 _))
  rw [← Char.ofNat_toNat c]
  exact hdigits c.toNat (List.mem_range'_1.mpr (by omega))

section First

variable {first : Char} (hfirst : isWordStart first = true)

include hfirst

theorem ne_of_isWordStart {c : Char} (hc : isWordStart c = false) : first ≠ c := by
  rintro rfl
  rw [hfirst] at hc
  cases hc

theorem isTerminator_of_isWordStart : isTerminator first = false := by
  rw [← Bool.not_eq_true]
  exact fun h => ne_of_isWordStart hfirst (isWordStart_of_isTerminator h) rfl

theorem bracketKind?_of_isWordStart : bracketKind? first = none := by
  have hbracket := isTerminator_of_isWordStart hfirst
  simp only [isTerminator, isBracket, Bool.or_eq_false_iff, Option.isSome_eq_false_iff,
    Option.isNone_iff_eq_none] at hbracket
  rw [bracketKind?, hbracket.2.1, hbracket.2.2]
  rfl

theorem beginsTrivia_of_isWordStart (more : List Char) : beginsTrivia (first :: more) = false := by
  have hblank := isTerminator_of_isWordStart hfirst
  rw [isTerminator, Bool.or_eq_false_iff] at hblank
  rw [beginsTrivia_cons (ne_of_isWordStart hfirst (by decide +kernel)), hblank.1, Bool.or_false]
  exact beq_false_of_ne (ne_of_isWordStart hfirst (by decide +kernel))

/-- What begins like a word is read as one. -/
theorem scanToken_of_isWordStart (read : Nat) (more : List Char) :
    scanToken ⟨read, first :: more⟩ = scanWord ⟨read, first :: more⟩ := by
  have hdigit : ¬ (Base.decimal.isDigit first = true ∨ first = '+' ∨ first = '-') := by
    rintro (hdigit | hplus | hminus)
    · exact ne_of_isWordStart hfirst (isWordStart_of_isDigit hdigit) rfl
    · exact ne_of_isWordStart hfirst (by decide +kernel) hplus
    · exact ne_of_isWordStart hfirst (by decide +kernel) hminus
  rw [scanToken, if_neg (ne_of_isWordStart hfirst (by decide +kernel)), if_neg hdigit,
    bracketKind?_of_isWordStart hfirst]
  exact if_pos hfirst

end First

/-! ## Whole words -/

/-- **A word**: characters that a word goes on with, the first of which it can start with. -/
structure IsWord (text : List Char) : Prop where
  starts : ∃ first more, text = first :: more ∧ isWordStart first = true
  continues : ∀ c ∈ text, isWordContinue c = true

theorem scanWord_append (read : Nat) {text rest : List Char}
    (htext : ∀ c ∈ text, isWordContinue c = true) (hrest : AtEnd rest) :
    scanWord ⟨read, text ++ rest⟩ =
      .ok (wordToken (String.ofList text)) ⟨read + text.length, rest⟩ := by
  obtain ⟨htake, hdrop⟩ :=
    takeWhile_append_of_atEnd (fun _ => isWordContinue_of_isTerminator) text hrest
  rw [List.takeWhile_eq_self_iff.mpr htext] at htake
  rw [List.dropWhile_eq_nil_iff.mpr htext, List.nil_append] at hdrop
  refine Scanner.bind_succeeds.mpr ⟨_, _, rfl, ?_⟩
  simp only [Cursor.skipWhile, htake, hdrop]
  exact Scanner.bind_succeeds.mpr ⟨(), _, Scanner.expectEnd_eq_ok.mpr ⟨hrest, rfl⟩, rfl⟩

section Word

variable {text rest : List Char}

theorem IsWord.begins (h : IsWord text) (rest : List Char) : beginsTrivia (text ++ rest) = false := by
  obtain ⟨first, more, rfl, hfirst⟩ := h.starts
  exact beginsTrivia_of_isWordStart hfirst (more ++ rest)

/-- **A word is read up to its end.** -/
theorem IsWord.scanToken (h : IsWord text) (hrest : AtEnd rest) :
    scanToken (.start (text ++ rest)) =
      .ok (wordToken (String.ofList text)) ⟨text.length, rest⟩ := by
  have hscan := scanWord_append 0 h.continues hrest
  obtain ⟨first, more, rfl, hfirst⟩ := h.starts
  rw [Nat.zero_add] at hscan
  exact (scanToken_of_isWordStart hfirst 0 (more ++ rest)).trans hscan

/-- A word behind a gap is the next token. -/
theorem IsWord.reads (h : IsWord text) (hrest : AtEnd rest) {gap : List Char}
    (hgap : IsGap (text ++ rest) gap) {lexer : Lexer} (hinput : lexer.input = gap ++ (text ++ rest)) :
    lexer.Reads gap
      ⟨(wordToken (String.ofList text)).1, lexer.location.advanceBy gap, lexer.count,
        (wordToken (String.ofList text)).2, String.ofList text⟩
      ⟨rest, lexer.location.advanceBy (gap ++ text), lexer.count + 1, lexer.pending⟩ := by
  constructor <;> simp only [String.toList_ofList]
  · exact hinput
  · exact hgap
  · exact h.begins rest
  · exact h.scanToken hrest

end Word

/-! ## Kinds of words -/

section Kinds

variable {word : String} {kind : TokenKind}

theorem TokenKind.ofSpelling?_eq_some :
    TokenKind.ofSpelling? word = some kind ↔ (word, kind) ∈ TokenKind.reserved :=
  ascending_reserved.searchSorted_eq_some

theorem wordToken_of_mem (h : (word, kind) ∈ TokenKind.reserved) : (wordToken word).1 = kind := by
  rw [wordToken, TokenKind.ofSpelling?_eq_some.mpr h]
  split
  · next heq => exact (Option.some.inj heq).symm
  · next heq => exact (Option.some.inj heq).symm
  · next heq => cases heq

theorem wordToken_of_notMem (h : ∀ kind, (word, kind) ∉ TokenKind.reserved) :
    wordToken word = (.identifier, .text word) := by
  have hnone : TokenKind.ofSpelling? word = none :=
    Option.eq_none_iff_forall_ne_some.mpr fun kind hkind =>
      h kind (TokenKind.ofSpelling?_eq_some.mp hkind)
  rw [wordToken, hnone]

end Kinds

/-- **Every word is classified as the table of fixed words says.** Halving the table finds a text
exactly if it is an entry; and a word that ends at a terminator is read with the kind of its entry, or
else as an identifier that carries the whole word. -/
theorem word_classified (word : String) :
    (∀ kind, TokenKind.ofSpelling? word = some kind ↔ (word, kind) ∈ TokenKind.reserved) ∧
    (∀ kind, (word, kind) ∈ TokenKind.reserved → kind.spelling? = some word) ∧
    (IsWord word.toList → ∀ (lexer : Lexer) (gap rest : List Char), lexer.pending = none →
      lexer.input = gap ++ (word.toList ++ rest) → IsGap (word.toList ++ rest) gap → AtEnd rest →
      ∃ token after, lexer.next = (.ok token, after) ∧ token.text = word ∧
        token.location = lexer.location.advanceBy gap ∧ after.input = rest ∧
        (∀ kind, (word, kind) ∈ TokenKind.reserved → token.kind = kind) ∧
        ((∀ kind, (word, kind) ∉ TokenKind.reserved) →
          token.kind = .identifier ∧ token.value = .text word)) := by
  refine ⟨fun kind => TokenKind.ofSpelling?_eq_some, fun kind => spelling?_of_mem, ?_⟩
  intro hword lexer gap rest hpending hinput hgap hrest
  have hread := hword.reads hrest hgap hinput
  rw [String.ofList_toList] at hread
  have hnext := (Lexer.next_eq_fresh hpending).trans (Lexer.fresh_eq_ok.mpr ⟨gap, hread⟩)
  refine ⟨_, _, hnext, rfl, rfl, rfl, fun kind => wordToken_of_mem, fun hnone => ?_⟩
  rw [wordToken_of_notMem hnone]
  exact ⟨rfl, rfl⟩

/-- A fixed word in front of a bracket; and with more behind it, also of another script, none. -/
theorem word_classified_divmod :
    (∃ token after, (Lexer.ofChars ("divmod".toList ++ ['('])).next = (.ok token, after) ∧
      token.kind = .operator .divMod ∧ after.input = ['(']) ∧
    (∃ token after, (Lexer.ofChars ("divmodé-2".toList ++ ['\n'])).next = (.ok token, after) ∧
      token.kind = .identifier ∧ token.value = .text "divmodé-2" ∧ after.input = ['\n']) := by
  constructor
  · have hword : IsWord "divmod".toList :=
      ⟨⟨'d', _, rfl, by decide +kernel⟩, List.all_eq_true.mp (by decide +kernel)⟩
    obtain ⟨token, after, hnext, -, -, hafter, hkind, -⟩ :=
      (word_classified "divmod").2.2 hword (Lexer.ofChars _) [] ['('] rfl rfl .nil rfl
    exact ⟨token, after, hnext, hkind _ (by decide +kernel), hafter⟩
  · have hword : IsWord "divmodé-2".toList :=
      ⟨⟨'d', _, rfl, by decide +kernel⟩, List.all_eq_true.mp (by decide +kernel)⟩
    obtain ⟨token, after, hnext, -, -, hafter, -, hnone⟩ :=
      (word_classified "divmodé-2").2.2 hword (Lexer.ofChars _) [] ['\n'] rfl rfl .nil rfl
    have hnotMem : ∀ entry ∈ TokenKind.reserved, entry.1 ≠ "divmodé-2" := by decide +kernel
    obtain ⟨hkind, hvalue⟩ := hnone fun kind hmem => hnotMem _ hmem rfl
    exact ⟨token, after, hnext, hkind, hvalue, hafter⟩

end StackCompiler
