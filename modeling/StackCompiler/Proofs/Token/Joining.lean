import StackCompiler.Proofs.Token.Locality
import StackCompiler.Proofs.Token.Texts

/-!
# Texts joined by a newline

A newline ends every token and every line comment just as the end of input does. So a text that is
read without an error can be followed by a newline and another text, and each of the two is read as
if it stood alone. Only the lines and the numbers of the second text's tokens move on.

* `Location.down`: a place a number of lines further down, up to the end of the counter.
* `Token.moved`, `LexError.moved`, `Lexer.moved`, `Lexer.Run.moved`: the same for what is read
  there.
* **`Lexer.run_moved`**: a moved lexer reads the same tokens, moved.
* `Lexer.run_gap`: a gap in front of a text only moves it.
* **`Lexer.run_joined`**: the run over two texts joined by a newline.
* **`Lexer.tokenize_joined`**: the tokens, or the error, of two texts joined by a newline.
-/

namespace StackCompiler

/-! ## Moving places -/

namespace Location

/-- **The place a number of lines further down**, in the same column. -/
def down (lines : Nat) (l : Location) : Location := ⟨min (l.line + lines) limit, l.column⟩

theorem advance_down (lines : Nat) (l : Location) (c : Char) :
    (l.down lines).advance c = (l.advance c).down lines := by
  unfold advance
  split
  · simp only [down, bump, mk.injEq, and_true]
    omega
  · rfl

theorem advanceBy_down (lines : Nat) (l : Location) (cs : List Char) :
    (l.down lines).advanceBy cs = (l.advanceBy cs).down lines := by
  induction cs generalizing l with
  | nil => rfl
  | cons c cs ih => rw [advanceBy_cons, advance_down, ih, advanceBy_cons]

/-- Every newline leads one line down. -/
theorem line_advanceBy {l : Location} (hline : l.line ≤ limit) (cs : List Char) :
    (l.advanceBy cs).line = min (l.line + cs.count '\n') limit := by
  induction cs generalizing l with
  | nil => simp [hline]
  | cons c cs ih =>
    rw [advanceBy_cons, List.count_cons]
    by_cases hc : c = '\n'
    · have hadvance : (l.advance c).line = min (l.line + 1) limit := by simp [advance, hc, bump]
      rw [ih (by omega), hadvance]
      simp only [hc, beq_self_eq_true, if_true]
      omega
    · have hadvance : (l.advance c).line = l.line := by simp [advance, hc]
      rw [ih (by omega), hadvance]
      simp [hc]

/-- **A newline leads to the first column**, one line below the lines before it. -/
theorem start_advanceBy_newline (cs : List Char) :
    start.advanceBy (cs ++ ['\n']) = start.down (1 + cs.count '\n') := by
  have hline := line_advanceBy (l := start) (by decide) cs
  rw [advanceBy_append, advanceBy_cons, advanceBy_nil, advance, if_pos rfl, hline]
  simp only [down, bump, start, mk.injEq, and_true]
  omega

end Location

section Moved

variable (count lines : Nat)

/-- **A token with a number of tokens and of lines before it.** -/
def Token.moved (token : Token) : Token :=
  { token with location := token.location.down lines, index := token.index + count }

/-- An error with a number of lines before it. -/
def LexError.moved (e : LexError) : LexError := { e with location := e.location.down lines }

namespace Lexer

/-- A run goes on behind the token that is read first. -/
theorem run_eq (lexer : Lexer) : lexer.run = match lexer.next with
    | (.error e, after) => ⟨[], some e, after⟩
    | (.ok token, after) => if token.kind.isStop then ⟨[token], none, after⟩
      else { after.run with tokens := token :: after.run.tokens } := by
  rw [run]
  split
  · next heq => simp only [heq]
  · next heq =>
    simp only [heq]
    split <;> rfl

/-- A lexer with a number of tokens and of lines before it. -/
def moved (lexer : Lexer) : Lexer :=
  ⟨lexer.input, lexer.location.down lines, lexer.count + count,
    lexer.pending.map (Token.moved count lines)⟩

/-- A run with a number of tokens and of lines before it. -/
def Run.moved (run : Run) : Run :=
  ⟨run.tokens.map (Token.moved count lines), run.error.map (LexError.moved lines),
    run.last.moved count lines⟩

/-- What reading one token gives, with a number of tokens and of lines before it. -/
def movedResult : Except LexError Token × Lexer → Except LexError Token × Lexer
  | (.ok token, after) => (.ok (token.moved count lines), after.moved count lines)
  | (.error e, after) => (.error (e.moved lines), after.moved count lines)

variable (lexer : Lexer)

theorem place_moved (read : Nat) :
    (lexer.moved count lines).place read = (lexer.place read).down lines :=
  Location.advanceBy_down lines _ _

theorem moveTo_moved (cursor : Cursor) :
    (lexer.moved count lines).moveTo cursor = (lexer.moveTo cursor).moved count lines := by
  simp only [moveTo, place_moved]
  rfl

theorem fresh_moved : (lexer.moved count lines).fresh = movedResult count lines lexer.fresh := by
  have hinput (lexer : Lexer) : (lexer.moved count lines).input = lexer.input := rfl
  unfold fresh
  simp only [hinput, moveTo_moved, place_moved]
  cases skipTrivia (.start lexer.input) with
  | error fault stop => rfl
  | ok _ gap =>
    dsimp only
    cases scanToken (.start (lexer.moveTo gap).input) with
    | error fault stop => rfl
    | ok result stop => simp only [movedResult, Token.moved, moved, Nat.add_right_comm]

theorem next_moved : (lexer.moved count lines).next = movedResult count lines lexer.next := by
  unfold next
  cases hpending : lexer.pending with
  | none => simp only [moved, hpending, Option.map_none, ← fresh_moved]
  | some token => simp only [moved, hpending, Option.map_some, movedResult, Option.map_none]

/-- **A moved lexer reads the same tokens, moved.** -/
theorem run_moved : (lexer.moved count lines).run = lexer.run.moved count lines := by
  fun_induction run lexer with
  | case1 lexer e after h =>
    rw [run_eq, next_moved, h]
    rfl
  | case2 lexer token after h hstop =>
    rw [run_eq, next_moved, h]
    exact if_pos hstop
  | case3 lexer token after h hstop _ rest ih =>
    rw [run_eq, next_moved, h]
    refine (if_neg hstop).trans ?_
    rw [ih]
    rfl

end Lexer

end Moved

/-! ## Gaps in front -/

/-- A cursor with a number of characters before it. -/
def Cursor.later (n : Nat) (c : Cursor) : Cursor := ⟨n + c.read, c.rest⟩

/-- What a scanner gives, with a number of characters before it. -/
def laterResult {α : Type} (n : Nat) :
    EStateM.Result ScanFault Cursor α → EStateM.Result ScanFault Cursor α
  | .ok a c => .ok a (c.later n)
  | .error fault c => .error ⟨n + fault.place, fault.cause⟩ (c.later n)

theorem endOfComment?_later (n read : Nat) (input : List Char) :
    endOfComment? (n + read) input = (endOfComment? read input).map (Cursor.later n) := by
  fun_induction endOfComment? read input with
  | case1 read rest => rfl
  | case2 read d rest hne ih =>
    rw [endOfComment?]
    · exact ih
    · exact hne
  | case3 => rfl

/-- A block comment ends in the same way behind other characters. -/
theorem skipBlockComment_later (n read : Nat) (rest : List Char) :
    skipBlockComment ⟨n + read, '/' :: '*' :: rest⟩ =
      laterResult n (skipBlockComment ⟨read, '/' :: '*' :: rest⟩) := by
  rw [skipBlockComment_eq, skipBlockComment_eq, Nat.add_assoc, endOfComment?_later]
  cases endOfComment? (read + 2) rest with
  | none => simp only [Option.map_none, laterResult, Cursor.later, Nat.add_assoc]
  | some after => rfl

/-- Blanks and comments are skipped in the same way behind other characters. -/
theorem skipTrivia_later (n : Nat) (c : Cursor) :
    skipTrivia (c.later n) = laterResult n (skipTrivia c) := by
  have hline (read : Nat) (rest : List Char) :
      endOfLine ⟨n + read, rest⟩ = (endOfLine ⟨read, rest⟩).later n := by
    simp only [endOfLine, Cursor.skipWhile, Cursor.later, Nat.add_assoc]
  fun_induction skipTrivia c with
  | case1 read => rw [Cursor.later, skipTrivia]; rfl
  | case2 read rest ih => rw [Cursor.later, skipTrivia, ← ih, ← hline]; rfl
  | case3 read rest fault stop h =>
    have hlater := skipBlockComment_later n read rest
    rw [h] at hlater
    rw [Cursor.later, skipTrivia_comment, hlater]
    rfl
  | case4 read rest _ after h _ ih =>
    have hlater := skipBlockComment_later n read rest
    rw [h] at hlater
    rw [Cursor.later, skipTrivia_comment, hlater, ← ih]
    rfl
  | case5 read rest hslash hstar ih =>
    rw [Cursor.later, skipTrivia, if_pos rfl, ← ih, ← hline]
    · rfl
    · exact hslash
    · exact hstar
  | case6 read c rest hslash hstar hsemi hblank ih =>
    rw [Cursor.later, skipTrivia, if_neg hsemi, if_pos hblank, ← ih]
    · rfl
    · exact hslash
    · exact hstar
  | case7 read c rest hslash hstar hsemi hblank =>
    rw [Cursor.later, skipTrivia, if_neg hsemi, if_neg hblank]
    · rfl
    · exact hslash
    · exact hstar

namespace Lexer

/-- **A gap in front of a text only moves its place.** -/
theorem fresh_gap {gap rest : List Char} (hgap : IsGap rest gap) (location : Location) (count : Nat)
    (pending : Option Token) : fresh ⟨gap ++ rest, location, count, pending⟩ =
      fresh ⟨rest, location.advanceBy gap, count, pending⟩ := by
  have hskip : skipTrivia (.start (gap ++ rest)) =
      laterResult gap.length (skipTrivia (.start rest)) := by
    rw [Cursor.start, skipTrivia_append 0 hgap, ← skipTrivia_later]
    simp [Cursor.later, Cursor.start]
  have hplace (read : Nat) : place ⟨gap ++ rest, location, count, pending⟩ (gap.length + read) =
      place ⟨rest, location.advanceBy gap, count, pending⟩ read := by
    simp only [place, List.take_length_add_append, Location.advanceBy_append]
  unfold fresh
  dsimp only
  rw [hskip]
  cases skipTrivia (.start rest) with
  | error fault stop => simp only [laterResult, moveTo, Cursor.later, hplace]
  | ok _ stop => simp only [laterResult, moveTo, Cursor.later, hplace]

theorem run_gap {gap rest : List Char} (hgap : IsGap rest gap) (location : Location) (count : Nat) :
    run ⟨gap ++ rest, location, count, none⟩ =
      run ⟨rest, location.advanceBy gap, count, none⟩ := by
  rw [run_eq, run_eq, next_eq_fresh rfl, next_eq_fresh rfl, fresh_gap hgap]

/-! ## Two texts -/

/-- **The run over two texts joined by a newline.** The first text's end of input is gone, and the
second text is read as if it stood alone, further down. -/
theorem run_joined {first : List Char} {inits : List Token} {last : Token}
    (hrun : (ofChars first).run.tokens = inits ++ [last]) (hlast : last.kind = .eof)
    (hinits : ∀ token ∈ inits, token.kind.isStop = false) (second : List Char) :
    let rest := (ofChars second).run.moved inits.length (1 + first.count '\n')
    (ofChars (first ++ '\n' :: second)).run = { rest with tokens := inits ++ rest.tokens } := by
  obtain ⟨pieces, here, gap, next, hscans, hmap, hread⟩ := scans_of_run rfl hrun
  obtain ⟨htext, hnext⟩ := hread.eof hlast
  have hhere : here.input = gap := by
    rw [hread.input, htext, hnext]
    simp
  have hfirst : first = pieces.flatMap Piece.chars ++ gap := by
    rw [← hhere]
    exact hscans.input
  have hkinds : ∀ p ∈ pieces, p.token.kind ≠ .eof := fun p hp =>
    TokenKind.ne_eof_of_isStop (hinits p.token (hmap ▸ List.mem_map_of_mem hp))
  -- the newline ends the last token just as the end of input does
  have hend : AtEnd here.input → AtEnd (gap ++ '\n' :: second) := by
    rw [hhere]
    intro h
    cases gap with
    | nil => rfl
    | cons c gap => exact h
  have hexchange := hscans.exchange hkinds hend
  have hsource : (ofChars first).withInput (pieces.flatMap Piece.chars ++ (gap ++ '\n' :: second)) =
      ofChars (first ++ '\n' :: second) := by
    rw [hfirst, List.append_assoc]
    rfl
  rw [hsource] at hexchange
  have hpending : here.pending = none := hscans.pending
  have hgap : IsGap second (gap ++ ['\n']) := hread.isGap.newline
  have hbehind : (here.withInput (gap ++ '\n' :: second)).run =
      (ofChars second).run.moved inits.length (1 + first.count '\n') := by
    have hinput : here.withInput (gap ++ '\n' :: second) =
        ⟨gap ++ ['\n'] ++ second, here.location, here.count, none⟩ := by
      rw [List.append_assoc, ← hpending]
      rfl
    rw [hinput, run_gap hgap, ← run_moved]
    have hlocation : here.location.advanceBy (gap ++ ['\n']) =
        Location.start.down (1 + first.count '\n') := by
      rw [hscans.location, ← Location.advanceBy_append, ← List.append_assoc, ← hfirst]
      exact Location.start_advanceBy_newline first
    have hcount : here.count = 0 + inits.length := by
      rw [hscans.count, ← hmap, List.length_map]
      rfl
    rw [hlocation, hcount]
    rfl
  rw [run_of_scans rfl hexchange hkinds, hbehind, hmap]

/-- **Texts joined by a newline are read one after the other.** If the first is read without an
error, its tokens but the end of input come first. Behind them come those of the second, or its
error, with as many lines above as the first text and the newline make up. -/
theorem tokenize_joined {first : List Char} {tokens : List Token}
    (h : (ofChars first).tokenize.1 = .ok tokens) (second : List Char) :
    (∃ last, tokens = tokens.dropLast ++ [last] ∧ last.kind = .eof) ∧
    (ofChars (first ++ '\n' :: second)).tokenize.1 = match (ofChars second).tokenize.1 with
      | .ok more => .ok (tokens.dropLast ++
          more.map (Token.moved tokens.dropLast.length (1 + first.count '\n')))
      | .error e => .error (e.moved (1 + first.count '\n')) := by
  obtain ⟨herror, rfl⟩ := tokenize_eq_ok.mp h
  obtain ⟨inits, last, htokens, hlast, hinits⟩ := (run_ofChars_whole first).ends herror
  have hdrop : (ofChars first).run.tokens.dropLast = inits := by rw [htokens, List.dropLast_concat]
  refine ⟨⟨last, by rw [hdrop, htokens], hlast⟩, ?_⟩
  rw [hdrop, tokenize, run_joined htokens hlast hinits second, tokenize]
  cases hsecond : (ofChars second).run.error with
  | none => simp [Run.moved, hsecond]
  | some e => simp [Run.moved, hsecond]

/-- A comment at the end of the first text ends at the newline, and the second text stops at a
string that is not closed. -/
theorem tokenize_joined_comment :
    (ofChars "fn ; x\n1u8 // y".toList).tokenize.1 =
        .ok (ofChars "fn ; x\n1u8 // y".toList).run.tokens ∧
      (ofChars ("fn ; x\n1u8 // y".toList ++ '\n' :: " a\n \"b".toList)).tokenize.1 =
        .error ⟨.unterminatedString, ⟨4, 2⟩⟩ := by
  have h : (ofChars "fn ; x\n1u8 // y".toList).tokenize.1 =
      .ok (ofChars "fn ; x\n1u8 // y".toList).run.tokens := by
    decide +kernel
  refine ⟨h, (tokenize_joined h " a\n \"b".toList).2.trans ?_⟩
  decide +kernel

end Lexer

end StackCompiler
