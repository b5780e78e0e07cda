import StackCompiler.Proofs.Cast.Phrase
import StackCompiler.Proofs.Chain.Text

/-!
# Texts without casts

In a text, a blank stands in place of every cast that is left out, from its keyword to the end of its
last type. What stands around the cast is kept as it is, so the other tokens are read as the same
words: the blank ends the token before it, and goes with the gap of the token behind it.

* `Lexer.pieces`: the tokens of a text, each with the gap before it.
* `eraseText`, **`eraseCasts`**: a text without some casts.
* **`Lexer.tokenize_eraseCasts`**: its words.
-/

namespace StackCompiler

/-! ## Gaps -/

/-- A gap behind a gap. -/
theorem IsGap.append {rest gap more : List Char} (h : IsGap (more ++ rest) gap)
    (hmore : IsGap rest more) : IsGap rest (gap ++ more) := by
  induction h with
  | nil => exact hmore
  | blank hc _ ih => exact .blank hc ih
  | @line opener body between hopener hbody hend _ ih =>
    rw [List.append_assoc, List.append_assoc]
    exact .line hopener hbody (by rwa [List.append_assoc]) ih
  | @block body between hbody _ ih =>
    have hblock := IsGap.block hbody ih
    simpa using hblock

/-! ## Pieces -/

/-- Cuts a text into pieces, given its tokens. -/
def Lexer.cut : (input : List Char) → List Token → List Piece
  | _, [] => []
  | input, token :: tokens =>
    let gap := (cursorAfter (skipTrivia (.start input))).read
    ⟨input.take gap, token⟩ :: cut (input.drop (gap + token.text.toList.length)) tokens

/-- **The tokens of a text, each with the gap before it.** -/
def Lexer.pieces (source : List Char) : List Piece := cut source (ofChars source).run.tokens

theorem Lexer.cut_of_scans {lexer after : Lexer} {pieces : List Piece}
    (h : lexer.Scans pieces after) : cut lexer.input (pieces.map Piece.token) = pieces := by
  induction h with
  | nil lexer => rfl
  | @cons lexer middle after p pieces hread _ ih =>
    have hskip : (cursorAfter (skipTrivia (.start lexer.input))).read = p.gap.length := by
      rw [hread.input, Cursor.start, skipTrivia_append 0 hread.isGap,
        skipTrivia_of_not_begins _ hread.begins]
      exact Nat.zero_add _
    have htake : lexer.input.take p.gap.length = p.gap := by
      rw [hread.input, List.take_left]
    have hdrop : lexer.input.drop (p.gap.length + p.token.text.toList.length) = middle.input := by
      rw [hread.input, ← List.append_assoc, ← List.length_append, List.drop_left]
    simp only [List.map_cons, cut, hskip, htake, hdrop, ih]

/-! ## Erasing -/

variable (erased : Token → Bool)

/-- **The text of pieces without some casts**: a blank stands in place of each. `inside` tells whether
the last piece was left out. -/
def eraseText : (inside : Bool) → List Lexer.Piece → List Char
  | _, [] => []
  | inside, p :: pieces =>
    if p.token.kind = .keyword .asType ∧ erased p.token then p.gap ++ ' ' :: eraseText true pieces
    else if inside ∧ p.token.kind.isType then eraseText true pieces
    else p.chars ++ eraseText false pieces

/-- **A text without the casts that are chosen by their keywords.** -/
def eraseCasts (source : List Char) : List Char := eraseText erased false (Lexer.pieces source)

/-- The end of input stays. -/
theorem eraseText_append_eof (inside : Bool) (pieces : List Lexer.Piece) {p : Lexer.Piece}
    (hp : p.token.kind = .eof) :
    eraseText erased inside (pieces ++ [p]) = eraseText erased inside pieces ++ p.chars := by
  induction pieces generalizing inside with
  | nil => simp [eraseText, hp, TokenKind.isType]
  | cons q pieces ih =>
    simp only [List.cons_append, eraseText, ih]
    split_ifs <;> simp

/-- A word ends before a cast and before the blank in its place. -/
theorem atEnd_eraseText {pieces : List Lexer.Piece}
    (htexts : ∀ p ∈ pieces, p.token.text.toList ≠ []) {rest : List Char} :
    AtEnd (pieces.flatMap Lexer.Piece.chars ++ rest) →
      AtEnd (eraseText erased false pieces ++ rest) := by
  cases pieces with
  | nil => exact id
  | cons p pieces =>
    rw [eraseText, if_neg (by simp : ¬ (false = true ∧ p.token.kind.isType = true))]
    split_ifs
    · cases hgap : p.gap with
      | nil => exact fun _ => rfl
      | cons c gap =>
        rw [List.flatMap_cons, Lexer.Piece.chars, hgap]
        exact id
    · obtain ⟨first, more, hp⟩ : ∃ first more, p.chars = first :: more := by
        refine List.exists_cons_of_ne_nil fun hnil => ?_
        exact htexts p (.head _) (List.append_eq_nil_iff.mp hnil).2
      rw [List.flatMap_cons, hp]
      exact id

namespace Lexer

/-- A token does not begin with the end of a line. -/
theorem Reads.not_atLineEnd {lexer after : Lexer} {gap : List Char} {token : Token}
    (h : lexer.Reads gap token after) (hkind : token.kind ≠ .eof) :
    ¬ AtLineEnd (token.text.toList ++ after.input) := by
  obtain ⟨first, text, htext⟩ := List.exists_cons_of_ne_nil (h.text_ne_nil hkind)
  intro hend
  have hbegins := h.begins
  rw [htext] at hend hbegins
  obtain rfl : first = '\n' := hend
  cases hbegins

/-- A token is read behind one more gap. -/
theorem Reads.behind {lexer after lexer' : Lexer} {gap more : List Char} {token : Token}
    (h : lexer.Reads more token after) (hgap : ∀ rest, IsGap rest gap)
    (hinput : lexer'.input = gap ++ lexer.input) :
    ∃ after', lexer'.ScansWords [token.word] after' ∧ after'.input = after.input := by
  obtain ⟨token', after', hread, htoken, hafter⟩ := @reads_of_scan lexer' (gap ++ more) after.input
    token.word (IsGap.append (hgap _) h.isGap) h.begins h.scans
    (by rw [hinput, h.input, List.append_assoc]; rfl)
  have hwords := hread.scansWords
  rw [htoken] at hwords
  exact ⟨after', hwords, hafter⟩

/-- **A text without casts is read with the words that are left**, behind any gap. -/
theorem scansWords_eraseText {lexer after final lexer' : Lexer} {pieces : List Piece}
    {lastGap : List Char} {last : Token} (hscans : lexer.Scans pieces after)
    (hkinds : ∀ p ∈ pieces, p.token.kind ≠ .eof) (hlast : after.Reads lastGap last final)
    (inside : Bool) {gap : List Char} (hgap : ∀ rest, IsGap rest gap)
    (hinput : lexer'.input = gap ++ (eraseText erased inside pieces ++ after.input)) :
    ∃ final', lexer'.ScansWords
      ((eraseTokens erased inside (pieces.map Piece.token)).map Token.word ++ [last.word])
      final' := by
  -- What is left of erased casts piles up in the gap before the next token that is kept.
  induction hscans generalizing lexer' inside gap with
  | nil lexer =>
    obtain ⟨final', hwords, -⟩ := hlast.behind hgap hinput
    exact ⟨final', hwords⟩
  | @cons lexer middle after p pieces hread hmore ih =>
    obtain ⟨hkind, hkinds⟩ := List.forall_mem_cons.mp hkinds
    rw [List.map_cons, eraseTokens]
    rw [eraseText] at hinput
    split_ifs at hinput ⊢ with hcast htype
    · have hmoreGap (rest : List Char) : IsGap rest (gap ++ (p.gap ++ [' '])) := by
        have hfirst : IsGap ([' '] ++ rest) p.gap :=
          hread.isGap.exchange (hread.not_atLineEnd hkind)
        exact IsGap.append (hgap _) (IsGap.append hfirst (isGap_blank rest))
      exact ih hkinds hlast true hmoreGap (by simp [hinput])
    · exact ih hkinds hlast true hgap hinput
    · have htexts : ∀ q ∈ pieces, q.token.text.toList ≠ [] := by
        intro q hq
        obtain ⟨before, behind, rfl⟩ := List.append_of_mem hq
        obtain ⟨_, _, -, hq', -⟩ := hmore.reads
        exact hq'.text_ne_nil (hkinds q hq)
      let rest := eraseText erased false pieces ++ after.input
      have hend : AtEnd middle.input → AtEnd rest := by
        rw [hmore.input]
        exact atEnd_eraseText erased htexts
      have hinput' : lexer'.input = gap ++ (p.gap ++ (p.token.text.toList ++ rest)) := by
        rw [hinput, Piece.chars, List.append_assoc, List.append_assoc]
      obtain ⟨here, hfirst, hhere⟩ := (hread.exchange hkind hend).behind hgap hinput'
      have hnone (rest : List Char) : IsGap rest [] := .nil
      obtain ⟨final', hrest⟩ := ih hkinds hlast false hnone hhere
      exact ⟨final', hfirst.append hrest⟩

/-- **The words of a text without some casts.** -/
theorem tokenize_eraseCasts {source : List Char} {tokens : List Token} {last : Token}
    (h : (ofChars source).tokenize.1 = .ok (tokens ++ [last])) (hlast : last.kind = .eof) :
    ∃ tokens' last', (ofChars (eraseCasts erased source)).tokenize.1 = .ok (tokens' ++ [last']) ∧
      last'.kind = .eof ∧
      tokens'.map Token.word = (eraseTokens erased false tokens).map Token.word := by
  obtain ⟨-, htokens⟩ := tokenize_eq_ok.mp h
  have hstops := isStop_of_before htokens
  obtain ⟨before, here, gap, final, hscans, rfl, hread⟩ := scans_of_run rfl htokens
  have hnotEof (t : Token) (ht : t ∈ before.map Piece.token) : t.kind ≠ .eof :=
    TokenKind.ne_eof_of_isStop (hstops t ht)
  have hkinds : ∀ p ∈ before, p.token.kind ≠ .eof :=
    fun p hp => hnotEof _ (List.mem_map_of_mem hp)
  -- the end of input has no text
  have hchars : Piece.chars ⟨gap, last⟩ = here.input := by
    obtain ⟨htext, hafter⟩ := hread.eof hlast
    rw [hread.input, hafter, List.append_nil]
    rfl
  have hpieces : pieces source = before ++ [⟨gap, last⟩] := by
    rw [pieces, htokens]
    have hwhole := cut_of_scans (hscans.append (.cons (p := ⟨gap, last⟩) hread (.nil final)))
    rwa [List.map_append] at hwhole
  have hinput : (ofChars (eraseCasts erased source)).input =
      [] ++ (eraseText erased false before ++ here.input) := by
    rw [← hchars, ← eraseText_append_eof erased false before (p := ⟨gap, last⟩) hlast, ← hpieces]
    rfl
  obtain ⟨final', hwords⟩ :=
    scansWords_eraseText erased hscans hkinds hread false (fun _ => .nil) hinput
  have hkept : ∀ word ∈ (eraseTokens erased false (before.map Piece.token)).map Token.word,
      word.1 ≠ .eof := by
    refine List.forall_mem_map.mpr fun t ht => hnotEof t ?_
    exact (eraseTokens_sublist erased false _).subset ht
  obtain ⟨tokens', last', htokenize, hmap, hlast'⟩ := hwords.tokenize rfl hkept hlast
  exact ⟨tokens', last', htokenize, hlast', hmap⟩

end Lexer

end StackCompiler
