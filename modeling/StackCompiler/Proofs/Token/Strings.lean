import StackCompiler.Proofs.Token.Integers

/-!
# String literals

A string literal is a row of items between quotes, and then a `c` or nothing. What an item denotes does
not depend on its neighbours, so a literal denotes the bytes of its items one after another.

* `Escape.EscapeText`, `ItemText`, `ContentsText`, `QuotedText`: the grammar of string literals, with
  the bytes that each part denotes.
* `scanQuotedBytes_spells`, `quotedTail_spells`: what the scanners read.
* `contentsText_bytes`: a literal for every byte sequence.
* **`Lexer.next_string`**: what the lexer makes of a text that begins with a quote.
-/

namespace StackCompiler

open Scanner

/-! ## Escapes -/

namespace Escape

/-- The escapes of one character, each with the character that it denotes. -/
def table : List (Char × Char) :=
  [('0', '\x00'), ('a', '\x07'), ('b', '\x08'), ('f', '\x0c'), ('n', '\n'), ('r', '\r'), ('t', '\t'),
    ('v', '\x0b'), ('\\', '\\'), ('\x27', '\x27'), ('\x22', '\x22')]

theorem simple?_eq_some {selector c : Char} :
    simple? selector = some c ↔ (selector, c) ∈ table := by
  constructor
  · intro h
    unfold simple? at h
    by_cases hself : selector = '\\' ∨ selector = '\x27' ∨ selector = '\x22'
    · rcases hself with rfl | rfl | rfl <;> cases h <;> decide
    · rw [if_neg hself] at h
      split_ifs at h <;> cases h <;> subst_vars <;> decide
  · have hall : ∀ entry ∈ table, simple? entry.1 = some entry.2 := by decide
    exact hall (selector, c)

/-- **What stands behind the backslash of an escape**, with the bytes that it denotes: a character of
the table, or hexadecimal digits for one byte or for the UTF-8 bytes of a character. -/
inductive EscapeText : List UInt8 → List Char → Prop where
  | simple {selector c : Char} (h : (selector, c) ∈ table) :
      EscapeText (String.utf8EncodeChar c) [selector]
  | byte {b : UInt8} {digits : List Char} (hdigits : ∀ c ∈ digits, Base.hexadecimal.isDigit c = true)
      (hlength : digits.length = 2) (hvalue : b.toNat = Base.hexadecimal.ofDigits digits) :
      EscapeText [b] ('x' :: digits)
  | character {selector c : Char} {digits : List Char}
      (hdigits : ∀ c ∈ digits, Base.hexadecimal.isDigit c = true)
      (hlength : selector = 'u' ∧ digits.length = 4 ∨ selector = 'U' ∧ digits.length = 8)
      (hvalue : c.toNat = Base.hexadecimal.ofDigits digits) :
      EscapeText (String.utf8EncodeChar c) (selector :: digits)

theorem digitCount?_eq_some {selector : Char} {count : Nat} :
    digitCount? selector = some count ↔ selector = 'x' ∧ count = 2 ∨
      (selector = 'u' ∧ count = 4 ∨ selector = 'U' ∧ count = 8) := by
  constructor
  · intro h
    unfold digitCount? at h
    split_ifs at h with hx hu hU <;> cases h
    · exact .inl ⟨hx, rfl⟩
    · exact .inr (.inl ⟨hu, rfl⟩)
    · exact .inr (.inr ⟨hU, rfl⟩)
  · rintro (⟨rfl, rfl⟩ | ⟨rfl, rfl⟩ | ⟨rfl, rfl⟩) <;> rfl

/-- What the digits of an escape denote. -/
theorem escapeText_of_bytesOf? {selector : Char} {digits : List Char} {bytes : List UInt8}
    (hcount : digitCount? selector = some digits.length)
    (hdigits : ∀ c ∈ digits, Base.hexadecimal.isDigit c = true)
    (hbytes : bytesOf? selector (Base.hexadecimal.ofDigits digits) = some bytes) :
    EscapeText bytes (selector :: digits) := by
  have hlength := digitCount?_eq_some.mp hcount
  unfold bytesOf? at hbytes
  split_ifs at hbytes with hx hvalid
  · cases hbytes
    subst hx
    have htwo : digits.length = 2 := hlength.elim (·.2) fun h => by simp at h
    have hlt := Base.ofDigits_lt hdigits
    rw [htwo] at hlt
    exact .byte hdigits htwo (UInt8.toNat_ofNat_of_lt hlt)
  · cases hbytes
    refine .character hdigits (hlength.resolve_left fun h => hx h.1) ?_
    rw [Char.ofNat, dif_pos hvalid]
    rfl

theorem bytesOf?_toNat {selector : Char} (hselector : selector ≠ 'x') (c : Char) :
    bytesOf? selector c.toNat = some (String.utf8EncodeChar c) := by
  have hvalid : c.toNat.isValidChar := c.valid
  rw [bytesOf?, if_neg hselector, if_pos hvalid, Char.ofNat_toNat]

theorem scan_spells (place : Nat) : (scan place).Spells fun bytes text _ => EscapeText bytes text where
  sound {n input bytes d} h := by
    cases input with
    | nil => cases h
    | cons selector rest =>
      rcases scan_eq_ok.mp h with
        ⟨c, hsimple, rfl, rfl⟩ | ⟨digits, more, -, hcount, hhex, rfl, hbytes, rfl⟩
      · exact ⟨[selector], rfl, rfl, .simple (simple?_eq_some.mp hsimple)⟩
      · refine ⟨selector :: digits, rfl, ?_, escapeText_of_bytesOf? hcount hhex hbytes⟩
        dsimp only [List.length_cons]
        omega
  complete {n text rest bytes} h := by
    have hlater (length : Nat) : n + 1 + length = n + (length + 1) := by omega
    cases h with
    | simple h => exact scan_eq_ok.mpr (.inl ⟨_, simple?_eq_some.mpr h, rfl, rfl⟩)
    | @byte b digits hdigits hlength hvalue =>
      have hbytes : bytesOf? 'x' (Base.hexadecimal.ofDigits digits) = some [b] := by
        rw [bytesOf?, if_pos rfl, ← hvalue, UInt8.ofNat_toNat]
      refine scan_eq_ok.mpr (.inr ⟨digits, rest, rfl, by rw [hlength]; rfl, hdigits, rfl, hbytes, ?_⟩)
      rw [hlater, List.length_cons]
    | @character selector c digits hdigits hlength hvalue =>
      have hcount := digitCount?_eq_some.mpr (.inr hlength)
      have hsimple : simple? selector = none := by
        rcases hlength with ⟨rfl, -⟩ | ⟨rfl, -⟩ <;> rfl
      have hselector : selector ≠ 'x' := by
        rcases hlength with ⟨rfl, -⟩ | ⟨rfl, -⟩ <;> decide
      have hbytes := bytesOf?_toNat hselector c
      rw [hvalue] at hbytes
      refine scan_eq_ok.mpr (.inr ⟨digits, rest, hsimple, hcount, hdigits, rfl, hbytes, ?_⟩)
      rw [hlater, List.length_cons]

end Escape

/-! ## Literals -/

/-- **An item of a string literal**, with the bytes that it denotes. -/
inductive ItemText : List UInt8 → List Char → Prop where
  | plain {c : Char} (hquote : c ≠ '\x22') (hescape : c ≠ '\\') :
      ItemText (String.utf8EncodeChar c) [c]
  | escape {bytes : List UInt8} {text : List Char} (h : Escape.EscapeText bytes text) :
      ItemText bytes ('\\' :: text)

/-- **Items in a row.** -/
inductive ContentsText : List UInt8 → List Char → Prop where
  | nil : ContentsText [] []
  | cons {bytes more : List UInt8} {item text : List Char} (hitem : ItemText bytes item)
      (htext : ContentsText more text) : ContentsText (bytes ++ more) (item ++ text)

theorem scanQuotedBytes_item (start : Nat) {n : Nat} {bytes : List UInt8} {item : List Char}
    (h : ItemText bytes item) (rest : List Char) :
    scanQuotedBytes start ⟨n, item ++ rest⟩ =
      prependBytes bytes (scanQuotedBytes start ⟨n + item.length, rest⟩) := by
  cases h with
  | plain hquote hescape =>
    rw [List.singleton_append, scanQuotedBytes, if_neg hquote, if_neg hescape]
    rfl
  | @escape bytes text h =>
    have hscan : Escape.scan n ⟨n + 1, text ++ rest⟩ = .ok bytes ⟨n + 1 + text.length, rest⟩ :=
      (Escape.scan_spells n).complete h
    rw [List.cons_append, scanQuotedBytes_escape start hscan, List.length_cons, Nat.add_assoc,
      Nat.add_comm 1]

theorem scanQuotedBytes_spells (start : Nat) :
    (scanQuotedBytes start).Spells fun bytes text _ =>
      ∃ contents, text = contents ++ ['\x22'] ∧ ContentsText bytes contents where
  sound {n input bytes d} h := by
    generalize hc : (⟨n, input⟩ : Cursor) = c at h
    fun_induction scanQuotedBytes start c generalizing n input bytes with
    | case1 => cases h
    | case2 read rest =>
      cases hc
      cases h
      exact ⟨['\x22'], rfl, rfl, [], rfl, .nil⟩
    | case3 => cases h
    | case4 read rest bytes after hescape _ _ ih =>
      cases hc
      obtain ⟨more, hmore, rfl⟩ := prependBytes_eq_ok.mp h
      obtain ⟨text, hrest, hread, hitem⟩ := (Escape.scan_spells read).sound hescape
      obtain ⟨_, hafter, hread', contents, rfl, hcontents⟩ := ih rfl hmore
      refine ⟨'\\' :: (text ++ (contents ++ ['\x22'])), ?_, ?_, '\\' :: (text ++ contents), ?_,
        .cons (.escape hitem) hcontents⟩
      · rw [hrest, hafter]
        simp
      · rw [hread', hread]
        simp only [List.length_cons, List.length_append]
        omega
      · simp
    | case5 read c rest hquote hplain ih =>
      cases hc
      obtain ⟨more, hmore, rfl⟩ := prependBytes_eq_ok.mp h
      obtain ⟨_, hafter, hread, contents, rfl, hcontents⟩ := ih rfl hmore
      refine ⟨c :: (contents ++ ['\x22']), ?_, ?_, c :: contents, rfl,
        .cons (.plain hquote hplain) hcontents⟩
      · rw [hafter]
        rfl
      · rw [hread, List.length_cons]
        omega
  complete {n text rest bytes} h := by
    obtain ⟨contents, rfl, hcontents⟩ := h
    induction hcontents generalizing n with
    | nil =>
      rw [List.nil_append, List.singleton_append, scanQuotedBytes, if_pos rfl]
      rfl
    | @cons bytes more item text hitem _ ih =>
      rw [List.append_assoc, List.append_assoc, scanQuotedBytes_item start hitem,
        ← List.append_assoc, ih]
      simp [prependBytes, Nat.add_assoc]

/-- The mark that asks for a closing zero. -/
def markText (terminated : Bool) : List Char := if terminated then ['c'] else []

theorem scanTerminatedMark_spells :
    scanTerminatedMark.Spells fun terminated text rest =>
      text = markText terminated ∧ beginsMark (text ++ rest) = terminated where
  sound {n input terminated d} h := by
    rw [scanTerminatedMark_eq] at h
    split_ifs at h with hmark
    · cases h
      obtain ⟨rest, rfl⟩ : ∃ rest, input = 'c' :: rest := by
        unfold beginsMark at hmark
        split at hmark <;> simp_all
      exact ⟨['c'], rfl, rfl, rfl, hmark⟩
    · cases h
      exact ⟨[], rfl, rfl, rfl, Bool.eq_false_iff.mpr hmark⟩
  complete {n text rest terminated} h := by
    obtain ⟨rfl, hmark⟩ := h
    rw [scanTerminatedMark_eq, hmark]
    cases terminated <;> rfl

theorem expectEnd_spells (cause : Char → LexFault) :
    (expectEnd cause).Spells fun _ text rest => text = [] ∧ AtEnd rest where
  sound h := by
    obtain ⟨hend, rfl⟩ := expectEnd_eq_ok.mp h
    exact ⟨[], rfl, rfl, rfl, hend⟩
  complete h := by
    obtain ⟨rfl, hend⟩ := h
    exact expectEnd_eq_ok.mpr ⟨hend, rfl⟩

/-- **The text of a string literal**: a quote, items, a quote, and the mark of a closing zero. -/
def QuotedText (terminated : Bool) (bytes : List UInt8) (text : List Char) : Prop :=
  ∃ contents, ContentsText bytes contents ∧ text = '\x22' :: (contents ++ '\x22' :: markText terminated)

/-- A string literal behind its opening quote. -/
theorem quotedTail_spells (start : Nat) : (quotedTail start).Spells fun result text rest =>
    ∃ terminated bytes, QuotedText terminated bytes ('\x22' :: text) ∧ AtEnd rest ∧
      result = (.string terminated, .bytes bytes) := by
  have hspells := (scanQuotedBytes_spells start).bind fun bytes =>
    scanTerminatedMark_spells.bind fun terminated => (expectEnd_spells .trailingSymbol).bind fun _ =>
      Spells.pure (TokenKind.string terminated, TokenValue.bytes bytes)
  constructor
  · intro n input result d h
    obtain ⟨_, hinput, hread, bytes, _, _, rfl, ⟨contents, rfl, hcontents⟩, terminated, _, _, rfl,
      ⟨rfl, -⟩, -, _, _, rfl, ⟨rfl, hend⟩, rfl, rfl⟩ := hspells.sound h
    refine ⟨_, hinput, hread, terminated, bytes, ⟨contents, hcontents, ?_⟩, hend, rfl⟩
    simp
  · rintro n text rest _ ⟨terminated, bytes, ⟨contents, hcontents, htext⟩, hend, rfl⟩
    refine hspells.complete ⟨bytes, contents ++ ['\x22'], markText terminated, ?_,
      ⟨contents, rfl, hcontents⟩, terminated, markText terminated, [], (List.append_nil _).symm,
      ⟨rfl, ?_⟩, (), [], [], rfl, ⟨rfl, hend⟩, rfl, rfl⟩
    · simpa using htext
    · rw [List.nil_append, beginsMark_append _ hend]
      cases terminated <;> rfl

/-! ## Bytes -/

/-- A byte as an escape. -/
def byteText (b : UInt8) : List Char :=
  ['\\', 'x', (b.toNat / 16).digitChar, (b.toNat % 16).digitChar]

theorem byteText_item (b : UInt8) : ItemText [b] (byteText b) := by
  have hhigh16 : b.toNat / 16 < 16 := Nat.div_lt_of_lt_mul b.toNat_lt
  have hlow16 : b.toNat % 16 < 16 := Nat.mod_lt _ (by decide)
  have hhigh := digitValue_digitChar _ hhigh16
  have hlow := digitValue_digitChar _ hlow16
  refine .escape (.byte ?_ rfl ?_)
  · intro c hc
    simp only [List.mem_cons, List.not_mem_nil, or_false] at hc
    rcases hc with rfl | rfl
    · exact Base.isDigit_of_digitValue hhigh hhigh16
    · exact Base.isDigit_of_digitValue hlow hlow16
  · simp only [Base.ofDigits, List.foldl_cons, List.foldl_nil, hhigh, hlow, Option.getD_some,
      Base.radix]
    omega

/-- **Every byte sequence is the contents of some literal.** -/
theorem contentsText_bytes (bytes : List UInt8) : ContentsText bytes (bytes.flatMap byteText) := by
  induction bytes with
  | nil => exact .nil
  | cons b bytes ih => exact .cons (byteText_item b) ih

namespace Lexer

variable {lexer : Lexer} {rest : List Char}

theorem next_quoted (hinput : lexer.input = '\x22' :: rest) (hpending : lexer.pending = none)
    {token : Token} : lexer.next.1 = .ok token ↔ ∃ terminated bytes text after,
      lexer.input = text ++ after ∧ QuotedText terminated bytes text ∧ AtEnd after ∧
      token = ⟨.string terminated, lexer.location, lexer.count, .bytes bytes, String.ofList text⟩ := by
  have hbegins : beginsTrivia lexer.input = false := by
    rw [hinput, beginsTrivia_cons (by decide)]
    decide
  have hscan : scanToken (.start lexer.input) = quotedTail 0 ⟨1, rest⟩ := by
    rw [hinput, Cursor.start, scanToken, if_pos rfl, scanQuoted_cons]
  rw [next_scanToken hpending hbegins, hscan]
  constructor
  · intro h
    cases hquoted : quotedTail 0 ⟨1, rest⟩ with
    | error fault stop =>
      rw [hquoted] at h
      cases h
    | ok result stop =>
      obtain ⟨text, hrest, hread, terminated, bytes, htext, hend, rfl⟩ :=
        (quotedTail_spells 0).sound hquoted
      rw [hquoted] at h
      cases h
      have htake : lexer.input.take stop.read = '\x22' :: text := by
        rw [hinput, hrest, hread, Nat.add_comm]
        simp
      refine ⟨terminated, bytes, '\x22' :: text, stop.rest, ?_, htext, hend, ?_⟩
      · rw [hinput, hrest]
        rfl
      · rw [htake]
  · rintro ⟨terminated, bytes, _, after, happend, ⟨contents, hcontents, rfl⟩, hend, rfl⟩
    obtain rfl : rest = (contents ++ '\x22' :: markText terminated) ++ after := by
      rw [happend] at hinput
      exact (List.cons.inj hinput).2.symm
    have hquoted := (quotedTail_spells 0).complete (n := 1)
      ⟨terminated, bytes, ⟨contents, hcontents, rfl⟩, hend, rfl⟩
    rw [hquoted, hinput]
    dsimp only
    congr 3
    rw [← List.cons_append, Nat.add_comm, List.take_left']
    rfl

/-- **String literals are accepted exactly and decoded exactly.** Where a text begins with a quote, a
token is read if and only if a string literal stands at its front and ends there, and then the token is
this literal with the bytes of its items. Every byte sequence is denoted by a literal of either kind. -/
theorem next_string (hinput : lexer.input = '\x22' :: rest) (hpending : lexer.pending = none) :
    (∀ token, lexer.next.1 = .ok token ↔ ∃ terminated bytes text after,
      lexer.input = text ++ after ∧ QuotedText terminated bytes text ∧ AtEnd after ∧
      token = ⟨.string terminated, lexer.location, lexer.count, .bytes bytes, String.ofList text⟩) ∧
    ∀ terminated bytes, ∃ text, (ofChars text).next.1 =
      .ok ⟨.string terminated, .start, 0, .bytes bytes, String.ofList text⟩ := by
  refine ⟨fun token => next_quoted hinput hpending, fun terminated bytes => ?_⟩
  have hquoted : QuotedText terminated bytes _ := ⟨_, contentsText_bytes bytes, rfl⟩
  exact ⟨_, (next_quoted rfl rfl).mpr ⟨_, _, _, _, (List.append_nil _).symm, hquoted, trivial, rfl⟩⟩

/-- Bytes that are no character, a character of two bytes, and a control character. -/
theorem next_string_escapes :
    (ofChars "\"\\xFFé\\u00e9\\n\"c)".toList).next.1 = .ok ⟨.string true, .start, 0,
      .bytes [0xFF, 0xC3, 0xA9, 0xC3, 0xA9, 0x0A], "\"\\xFFé\\u00e9\\n\"c"⟩ := by
  have hbyte : ItemText [0xFF] ['\\', 'x', 'F', 'F'] :=
    .escape (.byte (List.all_eq_true.mp rfl) rfl (by decide))
  have hplain : ItemText [0xC3, 0xA9] ['é'] := .plain (c := 'é') (by decide) (by decide)
  have hcharacter : ItemText [0xC3, 0xA9] ['\\', 'u', '0', '0', 'e', '9'] :=
    .escape (.character (c := 'é') (List.all_eq_true.mp rfl) (.inl ⟨rfl, rfl⟩) (by decide))
  have hsimple : ItemText [0x0A] ['\\', 'n'] := .escape (.simple (c := '\n') (by decide))
  have hcontents := ContentsText.cons hbyte (.cons hplain (.cons hcharacter (.cons hsimple .nil)))
  exact ((next_string rfl rfl).1 _).mpr
    ⟨true, _, _, [')'], by decide, ⟨_, hcontents, rfl⟩, rfl, by decide⟩

end Lexer

end StackCompiler
