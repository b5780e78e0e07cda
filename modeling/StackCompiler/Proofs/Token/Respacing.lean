import StackCompiler.Proofs.Chain.Text

/-!
# Texts of tokens

The text of a token says all about it: read by itself, it is the same token again. So a text can be
put together anew from the texts of its tokens, with any blanks between them. Comments and the old
blanks are gone, and the tokens stand elsewhere, but nothing else about them changes.

* `IsSeparator`: blanks that keep two tokens apart.
* `joinTexts`: texts in a row, with separators between them.
* `Lexer.Reads.legible`: a token by itself.
* **`Lexer.scansWords_joinTexts`**: words in a row.
* **`Lexer.tokenize_joinTexts`**: a whole text.
-/

namespace StackCompiler

/-! ## Joining -/

/-- **Blanks in a row**, at least one. -/
structure IsSeparator (chars : List Char) : Prop where
  ne_nil : chars ≠ []
  isBlank : ∀ c ∈ chars, isBlank c = true

/-- **Texts in a row**, with the separators between them. -/
def joinTexts (separator : Nat → List Char) : List String → List Char
  | [] => []
  | [text] => text.toList
  | text :: next :: texts =>
    text.toList ++ (separator 0 ++ joinTexts (fun n => separator (n + 1)) (next :: texts))

theorem isGap_of_blanks {chars : List Char} (h : ∀ c ∈ chars, isBlank c = true)
    (rest : List Char) : IsGap rest chars := by
  induction chars with
  | nil => exact .nil
  | cons c chars ih =>
    obtain ⟨hc, hchars⟩ := List.forall_mem_cons.mp h
    exact .blank hc (ih hchars)

theorem IsSeparator.atEnd {chars : List Char} (h : IsSeparator chars) (rest : List Char) :
    AtEnd (chars ++ rest) := by
  obtain ⟨c, chars, rfl⟩ := List.exists_cons_of_ne_nil h.ne_nil
  simp only [List.cons_append, AtEnd, isTerminator, h.isBlank c (.head _), Bool.true_or]

/-- Behind the first text comes the end, or a gap and the others. -/
theorem joinTexts_cons {separator : Nat → List Char} (hseparator : ∀ n, IsSeparator (separator n))
    (text : String) (texts : List String) :
    ∃ gap, joinTexts separator (text :: texts) =
        text.toList ++ (gap ++ joinTexts (fun n => separator (n + 1)) texts) ∧
      (∀ rest, IsGap rest gap) ∧
      AtEnd (gap ++ joinTexts (fun n => separator (n + 1)) texts) := by
  cases texts with
  | nil => exact ⟨[], (List.append_nil _).symm, fun _ => .nil, trivial⟩
  | cons next texts =>
    exact ⟨separator 0, rfl, isGap_of_blanks (hseparator 0).isBlank, (hseparator 0).atEnd _⟩

namespace Lexer

/-! ## One token -/

/-- The word that ends a text. -/
def endWord : Lexeme := (.eof, .none, "")

theorem Reads.word_eof {lexer after : Lexer} {gap : List Char} {token : Token}
    (h : lexer.Reads gap token after) (hkind : token.kind = .eof) : token.word = endWord := by
  obtain ⟨htext, hafter⟩ := h.eof hkind
  have hscans := h.scans
  rw [htext, hafter] at hscans
  have hvalue : token.value = .none := by
    injection hscans with hresult
    exact (congrArg Prod.snd hresult).symm
  rw [Token.word, hkind, hvalue, htext]
  rfl

/-- **The text of a token is read as this token**, wherever it was read first. -/
theorem Reads.legible {lexer after : Lexer} {gap : List Char} {token : Token}
    (h : lexer.Reads gap token after) (hkind : token.kind ≠ .eof) : Legible token.word := by
  have htext := h.text_ne_nil hkind
  have hend : AtEnd [] := trivial
  have hscans := scanToken_local htext h.scans fun _ => hend
  have hbegins := beginsTrivia_of_scanToken htext h.scans []
  rw [List.append_nil] at hscans hbegins
  exact ⟨htext, hbegins.trans h.begins, hscans, hkind⟩

/-! ## Tokens in a row -/

section Run

variable {source : List Char} {token : Token} (htoken : token ∈ (ofChars source).run.tokens)

include htoken

theorem legible_of_mem_run (hkind : token.kind ≠ .eof) : Legible token.word := by
  obtain ⟨_, _, _, hread⟩ := reads_of_mem_run htoken
  exact hread.legible hkind

theorem word_eof_of_mem_run (hkind : token.kind = .eof) : token.word = endWord := by
  obtain ⟨_, _, _, hread⟩ := reads_of_mem_run htoken
  exact hread.word_eof hkind

end Run

/-- **Joined texts are read as the words that they are the texts of**, up to the end of input. -/
theorem scansWords_joinTexts {words : List Lexeme} (hwords : ∀ word ∈ words, Legible word)
    {separator : Nat → List Char} (hseparator : ∀ n, IsSeparator (separator n)) {lexer : Lexer}
    {gap : List Char} (hgap : ∀ rest, IsGap rest gap)
    (hinput : lexer.input = gap ++ joinTexts separator (words.map fun word => word.2.2)) :
    ∃ after, lexer.ScansWords (words ++ [endWord]) after := by
  induction words generalizing separator lexer gap with
  | nil =>
    obtain ⟨token, after, hread, htoken, -⟩ :=
      @reads_of_scan lexer gap [] endWord (hgap _) rfl rfl hinput
    exact ⟨after, htoken ▸ hread.scansWords⟩
  | cons word words ih =>
    obtain ⟨hword, hwords⟩ := List.forall_mem_cons.mp hwords
    obtain ⟨next, hjoin, hnext, hend⟩ :=
      joinTexts_cons hseparator word.2.2 (words.map fun word => word.2.2)
    rw [List.map_cons, hjoin] at hinput
    obtain ⟨token, middle, hread, htoken, hmiddle⟩ :=
      reads_of_legible hword (hgap _) hend hinput
    obtain ⟨after, hmore⟩ := ih hwords (fun n => hseparator (n + 1)) hnext hmiddle
    exact ⟨after, (htoken ▸ hread.scansWords).append hmore⟩

/-- **The texts of the tokens of a text, with any blanks between them, are read as the same tokens.**
Only their places may change. -/
theorem tokenize_joinTexts {source : List Char} {tokens : List Token}
    (h : (ofChars source).tokenize.1 = .ok tokens) {separator : Nat → List Char}
    (hseparator : ∀ n, IsSeparator (separator n)) :
    ∃ tokens', (ofChars (joinTexts separator
        ((tokens.filter fun token => token.kind ≠ .eof).map Token.text))).tokenize.1 = .ok tokens' ∧
      tokens'.map Token.bare = tokens.map Token.bare := by
  obtain ⟨herror, rfl⟩ := tokenize_eq_ok.mp h
  obtain ⟨before, last, hbefore, hlast, hstops⟩ := (run_ofChars_whole source).ends herror
  have hkinds : ∀ token ∈ before, token.kind ≠ .eof := fun token htoken =>
    TokenKind.ne_eof_of_isStop (hstops token htoken)
  have hfilter : ((ofChars source).run.tokens.filter fun token => token.kind ≠ .eof) = before := by
    rw [hbefore, List.filter_append, List.filter_eq_self.mpr (by simpa using hkinds)]
    simp [hlast]
  have hlegible : ∀ word ∈ before.map Token.word, Legible word := by
    rw [List.forall_mem_map]
    exact fun token htoken =>
      legible_of_mem_run (hbefore ▸ List.mem_append_left [last] htoken) (hkinds token htoken)
  have htexts : before.map Token.text = (before.map Token.word).map fun word => word.2.2 := by
    rw [List.map_map]
    rfl
  rw [hfilter, htexts]
  obtain ⟨after, hwords⟩ := scansWords_joinTexts hlegible hseparator (fun _ => .nil)
    (rfl : (ofChars _).input = [] ++ _)
  obtain ⟨tokens', last', htokenize, hmap, hlast'⟩ :=
    hwords.tokenize rfl (fun word hword => (hlegible word hword).kind_ne) rfl
  refine ⟨tokens' ++ [last'], htokenize, ?_⟩
  -- both end with the same word, and both are numbered in order
  have hrun := (tokenize_eq_ok.mp htokenize).2
  refine map_bare_eq (hrun ▸ run_numbered _) (run_numbered source) ?_
  rw [hbefore, List.map_append, List.map_append, hmap, List.map_singleton, List.map_singleton,
    word_eof_of_mem_run (hrun ▸ List.mem_append_right tokens' (.head _)) hlast',
    word_eof_of_mem_run (hbefore ▸ List.mem_append_right before (.head _)) hlast]

/-- A string keeps its newline and what looks like a comment in it, and brackets are torn off from what
they stood at. -/
theorem tokenize_joinTexts_newlines :
    ∃ tokens', (ofChars (joinTexts (fun n => List.replicate (n + 1) '\n')
        (((ofChars "/**/f(-42i8\x7b\"a\n/* ;\"c\x7d) ; end".toList).run.tokens.filter
          fun token => token.kind ≠ .eof).map Token.text))).tokenize.1 = .ok tokens' ∧
      tokens'.map Token.bare =
        (ofChars "/**/f(-42i8\x7b\"a\n/* ;\"c\x7d) ; end".toList).run.tokens.map Token.bare :=
  have hrun : (ofChars "/**/f(-42i8\x7b\"a\n/* ;\"c\x7d) ; end".toList).tokenize.1 =
      .ok (ofChars "/**/f(-42i8\x7b\"a\n/* ;\"c\x7d) ; end".toList).run.tokens := by
    decide +kernel
  tokenize_joinTexts hrun fun n =>
    ⟨List.cons_ne_nil _ _, fun c hc => by rw [List.eq_of_mem_replicate hc]; rfl⟩

end Lexer

end StackCompiler
