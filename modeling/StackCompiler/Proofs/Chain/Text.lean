import StackCompiler.Proofs.Fault.Completion
import StackCompiler.Proofs.Token.Texts

/-!
# Writing a continuation out in a text

In the text, `elif` is replaced by `else { if`, and a closing brace is put behind the last token of
the continuation. Nothing else is touched. What stands before is read as ever; what comes later is
read at other places and under other numbers, but as the same words.

* `Lexer.ScansWords`: the words that are read.
* `Continuation`: where a text is cut.
* `writtenOut`: the text in which the continuation is written out.
* **`Lexer.tokenize_writtenOut`**: its words.
-/

namespace StackCompiler

/-! ## Words -/

namespace Lexer

/-- **Words that are read one after the other.** -/
def ScansWords (lexer : Lexer) (words : List Lexeme) (after : Lexer) : Prop :=
  ∃ pieces, lexer.Scans pieces after ∧ pieces.map (fun p => p.token.word) = words

section ScansWords

variable {lexer middle after lexer' : Lexer} {words more : List Lexeme}

theorem Scans.scansWords {pieces : List Piece} (h : lexer.Scans pieces after) :
    lexer.ScansWords ((pieces.map Piece.token).map Token.word) after :=
  ⟨pieces, h, by rw [List.map_map]; rfl⟩

theorem Reads.scansWords {gap : List Char} {token : Token} (h : lexer.Reads gap token after) :
    lexer.ScansWords [token.word] after := ⟨[⟨gap, token⟩], .cons h (.nil after), rfl⟩

theorem ScansWords.append (h : lexer.ScansWords words middle) (h' : middle.ScansWords more after) :
    lexer.ScansWords (words ++ more) after := by
  obtain ⟨pieces, hpieces, rfl⟩ := h
  obtain ⟨pieces', hpieces', rfl⟩ := h'
  exact ⟨pieces ++ pieces', hpieces.append hpieces', List.map_append⟩

/-- **A text has the same words wherever it stands.** -/
theorem ScansWords.elsewhere (h : lexer.ScansWords words after)
    (hinput : lexer'.input = lexer.input) :
    ∃ after', lexer'.ScansWords words after' ∧ after'.input = after.input := by
  obtain ⟨pieces, hpieces, rfl⟩ := h
  induction hpieces generalizing lexer' with
  | nil lexer => exact ⟨lexer', ⟨[], .nil lexer', rfl⟩, hinput⟩
  | @cons lexer middle after p pieces hread _ ih =>
    obtain ⟨token, next, hread', htoken, hnext⟩ := @reads_of_scan lexer' p.gap middle.input
      p.token.word hread.isGap hread.begins hread.scans (hinput.trans hread.input)
    obtain ⟨after', hmore, hafter⟩ := ih hnext
    refine ⟨after', ?_, hafter⟩
    have hwords := hread'.scansWords.append hmore
    rw [htoken] at hwords
    exact hwords

/-- A text whose last word is the end of input. -/
theorem ScansWords.tokenize (hpending : lexer.pending = none) {last : Lexeme}
    (h : lexer.ScansWords (words ++ [last]) after) (hwords : ∀ word ∈ words, word.1 ≠ .eof)
    (hlast : last.1 = .eof) :
    ∃ tokens token, lexer.tokenize.1 = .ok (tokens ++ [token]) ∧ tokens.map Token.word = words ∧
      token.kind = .eof := by
  obtain ⟨pieces, hscans, hmap⟩ := h
  obtain ⟨before, rest, rfl, rfl, hrest⟩ := List.map_eq_append_iff.mp hmap
  obtain ⟨p, rfl, rfl⟩ := List.map_eq_singleton_iff.mp hrest
  obtain ⟨here, next, hbefore, hread, -⟩ := hscans.reads
  have hkinds : ∀ q ∈ before, q.token.kind ≠ .eof := fun q hq => hwords _ (List.mem_map_of_mem hq)
  have hrun := run_of_scans hpending hbefore hkinds
  have heof : p.token.kind = .eof := hlast
  rw [run_of_reads (hbefore.pending.trans hpending) hread, if_pos heof] at hrun
  refine ⟨before.map Piece.token, p.token, tokenize_eq_ok.mpr ⟨?_, ?_⟩, ?_, hlast⟩
  · rw [hrun]
  · rw [hrun]
  · rw [List.map_map]
    rfl

end ScansWords

theorem Reads.text_elseIf {lexer after : Lexer} {gap : List Char} {token : Token}
    (h : lexer.Reads gap token after) (hkind : token.kind = .keyword .elseIf) :
    token.text = "elif" := by
  have hspelling := spelling?_of_scanToken h.scans (by rw [hkind]; rfl)
  rw [hkind, String.ofList_toList] at hspelling
  exact (Option.some.inj hspelling).symm

theorem Scans.of_append {lexer after : Lexer} {pieces more : List Piece}
    (h : lexer.Scans (pieces ++ more) after) :
    ∃ middle, lexer.Scans pieces middle ∧ middle.Scans more after := by
  induction pieces generalizing lexer with
  | nil => exact ⟨lexer, .nil lexer, h⟩
  | cons p pieces ih =>
    cases h with
    | cons hread hmore =>
      obtain ⟨middle, hpieces, hrest⟩ := ih hmore
      exact ⟨middle, .cons hread hpieces, hrest⟩

end Lexer

/-! ## Texts -/

/-- **A keyword in a text, and the tokens that follow it**: `front` is the text before the keyword,
`inner` that of the tokens, and `back` is the rest. -/
def Continuation (source : List Char) (keyword : Token) (tokens : List Token)
    (front inner back : List Char) : Prop :=
  ∃ pieces gap more here next after,
    (Lexer.ofChars source).Scans pieces here ∧ here.Reads gap keyword next ∧
    next.Scans more after ∧ more.map Lexer.Piece.token = tokens ∧
    front = pieces.flatMap Lexer.Piece.chars ++ gap ∧ inner = more.flatMap Lexer.Piece.chars ∧
    back = after.input

/-- The parts of a continuation make up the text. -/
theorem Continuation.source_eq {source front inner back : List Char} {keyword : Token}
    {tokens : List Token} (h : Continuation source keyword tokens front inner back)
    (hkind : keyword.kind = .keyword .elseIf) :
    source = front ++ ("elif".toList ++ (inner ++ back)) := by
  obtain ⟨pieces, gap, more, here, next, after, hfront, hread, hinner, -, rfl, rfl, rfl⟩ := h
  have hsource : source = pieces.flatMap Lexer.Piece.chars ++ here.input := hfront.input
  rw [hsource, hread.input, hinner.input, hread.text_elseIf hkind, List.append_assoc]

/-- **The text in which a continuation is written out.** -/
def writtenOut (front inner back : List Char) : List Char :=
  front ++ ("else \x7b if".toList ++ (inner ++ (" \x7d".toList ++ back)))

/-- The words between the text before a continuation and that of its tokens. -/
def headWords : List Lexeme :=
  [fixedWord (.keyword .otherwise), fixedWord (.opening .brace), fixedWord (.keyword .condition)]

/-- Any text can stand behind a gap in place of one that is not the end of a line. -/
theorem IsGap.exchange {rest rest' gap : List Char} (h : IsGap rest gap)
    (hrest : ¬ AtLineEnd rest) : IsGap rest' gap := h.congr fun hend => absurd hend hrest

theorem isGap_blank (rest : List Char) : IsGap rest [' '] := .blank rfl .nil

/-- A gap keeps its end in front of another word. -/
theorem atEnd_gap {gap rest rest' : List Char} (hrest : ¬ AtEnd rest) :
    AtEnd (gap ++ rest) → AtEnd (gap ++ rest') := by
  cases gap with
  | nil => exact fun hend => absurd hend hrest
  | cons c gap => exact id

namespace Lexer

/-- `else { if` is read as three words. -/
theorem scansWords_head {lexer : Lexer} {gap rest : List Char}
    (hgap : IsGap ("else \x7b if".toList ++ rest) gap) (hrest : AtEnd rest)
    (hinput : lexer.input = gap ++ ("else \x7b if".toList ++ rest)) :
    ∃ after, lexer.ScansWords headWords after ∧ after.input = rest := by
  have hblank (rest : List Char) : AtEnd (' ' :: rest) := rfl
  have helse : Legible (fixedWord (.keyword .otherwise)) :=
    legible_of_run (by decide) (by decide +kernel)
  have hbrace : Legible (fixedWord (.opening .brace)) :=
    legible_of_run (by decide) (by decide +kernel)
  have hif : Legible (fixedWord (.keyword .condition)) :=
    legible_of_run (by decide) (by decide +kernel)
  obtain ⟨token₁, lexer₁, hread₁, htoken₁, hinput₁⟩ :=
    reads_of_legible helse hgap (hblank ('\x7b' :: (" if".toList ++ rest))) hinput
  obtain ⟨token₂, lexer₂, hread₂, htoken₂, hinput₂⟩ :=
    reads_of_legible hbrace (isGap_blank _) (hblank ("if".toList ++ rest)) hinput₁
  obtain ⟨token₃, lexer₃, hread₃, htoken₃, hinput₃⟩ :=
    reads_of_legible hif (isGap_blank _) hrest hinput₂
  have hwords := hread₁.scansWords.append (hread₂.scansWords.append hread₃.scansWords)
  rw [htoken₁, htoken₂, htoken₃] at hwords
  exact ⟨lexer₃, hwords, hinput₃⟩

/-- A closing brace is read behind a blank, whatever follows. -/
theorem scansWords_closer {lexer : Lexer} {rest : List Char}
    (hinput : lexer.input = " \x7d".toList ++ rest) :
    ∃ after, lexer.ScansWords [fixedWord (.closing .brace)] after ∧ after.input = rest := by
  obtain ⟨token, after, hread, htoken, hafter⟩ := @reads_of_scan lexer [' '] rest
    (fixedWord (.closing .brace)) (isGap_blank _) rfl rfl hinput
  have hwords := hread.scansWords
  rw [htoken] at hwords
  exact ⟨after, hwords, hafter⟩

/-- **A text is read with the words of a continuation that is written out**, given how it is read as
it stands. -/
theorem scansWords_writtenOut {source gap : List Char} {front middle : List Piece} {keyword : Token}
    {lexer₁ lexer₂ lexer₃ final : Lexer} {words : List Lexeme}
    (hfront : (ofChars source).Scans front lexer₁) (hread : lexer₁.Reads gap keyword lexer₂)
    (hmiddle : lexer₂.Scans middle lexer₃) (hback : lexer₃.ScansWords words final)
    (hfrontKinds : ∀ p ∈ front, p.token.kind ≠ .eof)
    (hmiddleKinds : ∀ p ∈ middle, p.token.kind ≠ .eof)
    (hkind : keyword.kind = .keyword .elseIf) :
    ∃ final', (ofChars (writtenOut (front.flatMap Piece.chars ++ gap)
        (middle.flatMap Piece.chars) lexer₃.input)).ScansWords
      ((front.map Piece.token).map Token.word ++ (headWords ++
        ((middle.map Piece.token).map Token.word ++ (fixedWord (.closing .brace) :: words))))
      final' := by
  have htext := hread.text_elseIf hkind
  have hnotEnd : ¬ AtEnd (keyword.text.toList ++ lexer₂.input) := by
    rw [htext]
    exact (by decide : ¬ isTerminator 'e' = true)
  have hnotLineEnd : ¬ AtLineEnd (keyword.text.toList ++ lexer₂.input) := by
    rw [htext]
    exact (by decide : ¬ 'e' = '\n')
  have hmiddleTexts : ∀ p ∈ middle, p.token.text.toList ≠ [] := by
    intro p hp
    obtain ⟨first, rest, rfl⟩ := List.append_of_mem hp
    obtain ⟨_, _, -, hp', -⟩ := hmiddle.reads
    exact hp'.text_ne_nil (hmiddleKinds p hp)
  -- a word ended where the keyword did, and a word ends before a blank
  have hend : AtEnd (middle.flatMap Piece.chars ++ (" \x7d".toList ++ lexer₃.input)) := by
    have hafter : AtEnd lexer₂.input :=
      (atEnd_of_scanToken hread.scans).1.resolve_left (by simp [hkind, TokenKind.isBracket])
    rw [hmiddle.input] at hafter
    exact atEnd_exchange hmiddleTexts (fun _ => rfl) hafter
  let closing := " \x7d".toList ++ lexer₃.input
  let rest := "else \x7b if".toList ++ (middle.flatMap Piece.chars ++ closing)
  have hfront' : (ofChars (front.flatMap Piece.chars ++ (gap ++ rest))).Scans front
      (lexer₁.withInput (gap ++ rest)) := by
    refine hfront.exchange hfrontKinds ?_
    rw [hread.input]
    exact atEnd_gap hnotEnd
  have hrest : (lexer₁.withInput (gap ++ rest)).input = gap ++ rest := rfl
  obtain ⟨lexer₄, hhead, hinput₄⟩ :=
    scansWords_head (hread.isGap.exchange hnotLineEnd) hend hrest
  have hmiddle' : (lexer₂.withInput (middle.flatMap Piece.chars ++ closing)).Scans middle
      (lexer₃.withInput closing) :=
    hmiddle.exchange hmiddleKinds fun _ => rfl
  obtain ⟨lexer₅, hinner, hinput₅⟩ := hmiddle'.scansWords.elsewhere hinput₄
  obtain ⟨lexer₆, hcloser, hinput₆⟩ := scansWords_closer hinput₅
  obtain ⟨lexer₇, hback', -⟩ := hback.elsewhere hinput₆
  refine ⟨lexer₇, ?_⟩
  rw [writtenOut, List.append_assoc]
  exact hfront'.scansWords.append (hhead.append (hinner.append (hcloser.append hback')))

/-- **The words of the text in which a continuation is written out.** -/
theorem tokenize_writtenOut {source : List Char} {before inner after : List Token}
    {keyword last : Token}
    (h : (ofChars source).tokenize.1 = .ok ((before ++ keyword :: (inner ++ after)) ++ [last]))
    (hlast : last.kind = .eof) (hkeyword : keyword.kind = .keyword .elseIf) :
    ∃ front middle back, Continuation source keyword inner front middle back ∧
      ∃ tokens last',
        (ofChars (writtenOut front middle back)).tokenize.1 = .ok (tokens ++ [last']) ∧
        last'.kind = .eof ∧ tokens.map Token.word = before.map Token.word ++ (headWords ++
          (inner.map Token.word ++ (fixedWord (.closing .brace) :: after.map Token.word))) := by
  obtain ⟨-, htokens⟩ := tokenize_eq_ok.mp h
  have hstops := isStop_of_before htokens
  obtain ⟨pieces, here, gap, final, hscans, hmap, hread⟩ := scans_of_run rfl htokens
  have hkinds : ∀ p ∈ pieces, p.token.kind ≠ .eof := fun p hp =>
    TokenKind.ne_eof_of_isStop (hstops p.token (hmap ▸ List.mem_map_of_mem hp))
  -- the text is cut before the keyword, and behind the tokens
  obtain ⟨front, _, rfl, rfl, htail⟩ := List.map_eq_append_iff.mp hmap
  obtain ⟨p, _, rfl, rfl, hmore⟩ := List.map_eq_cons_iff.mp htail
  obtain ⟨middle, back, rfl, rfl, rfl⟩ := List.map_eq_append_iff.mp hmore
  obtain ⟨lexer₁, lexer₂, hfront, hp, hrest⟩ := hscans.reads
  obtain ⟨lexer₃, hmiddle, hback⟩ := hrest.of_append
  obtain ⟨final', hwords⟩ := scansWords_writtenOut hfront hp hmiddle
    (hback.scansWords.append hread.scansWords) (fun q hq => hkinds q (by simp [hq]))
    (fun q hq => hkinds q (by simp [hq])) hkeyword
  refine ⟨_, _, _, ⟨front, p.gap, middle, lexer₁, lexer₂, lexer₃, hfront, hp, hmiddle, rfl, rfl,
    rfl, rfl⟩, ?_⟩
  let words := (front.map Piece.token).map Token.word ++ (headWords ++
    ((middle.map Piece.token).map Token.word ++
      (fixedWord (.closing .brace) :: (back.map Piece.token).map Token.word)))
  have hwordKinds : ∀ word ∈ words, word.1 ≠ .eof := by
    have hpieces {pieces : List Piece} (h : ∀ q ∈ pieces, q.token.kind ≠ .eof) :
        ∀ word ∈ (pieces.map Piece.token).map Token.word, word.1 ≠ .eof := by
      rw [List.forall_mem_map, List.forall_mem_map]
      exact h
    simp only [words, List.forall_mem_append, List.forall_mem_cons]
    exact ⟨hpieces fun q hq => hkinds q (by simp [hq]), by decide,
      hpieces fun q hq => hkinds q (by simp [hq]), by decide,
      hpieces fun q hq => hkinds q (by simp [hq])⟩
  have hwhole : (ofChars (writtenOut (front.flatMap Piece.chars ++ p.gap)
      (middle.flatMap Piece.chars) lexer₃.input)).ScansWords (words ++ [last.word]) final' := by
    simpa [words] using hwords
  obtain ⟨tokens, last', htokenize, htokensWords, hlast'⟩ := hwhole.tokenize rfl hwordKinds hlast
  exact ⟨tokens, last', htokenize, hlast', htokensWords⟩

end Lexer

end StackCompiler
