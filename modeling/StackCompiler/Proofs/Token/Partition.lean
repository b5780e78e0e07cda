import Mathlib.Data.List.Infix
import Mathlib.Data.List.TakeWhile
import StackCompiler.Proofs.Token.Faithful

/-!
# Gaps and tokens

A text that is read without an error is cut into tokens and the gaps before them. A gap is made of
blanks and whole comments. A literal or a word ends at a blank, a bracket or the end of input.

* `IsGap`: blanks and comments in a row.
* `skipTrivia_eq_ok`: skipping leads over the longest gap.
* `Lexer.Reads`, **`Lexer.fresh_eq_ok`**: what reading one token means.
* `Lexer.Scans`: reading several tokens.
* **`Lexer.tokenize_isPartition`**: the pieces of a text.
-/

namespace StackCompiler

/-! ## Ends -/

/-- A place where a literal or a word may end: a blank, a bracket or the end of input. -/
def AtEnd : List Char → Prop
  | [] => True
  | c :: _ => isTerminator c = true

/-- The end of a line: a newline or the end of input. -/
def AtLineEnd : List Char → Prop
  | [] => True
  | c :: _ => c = '\n'

/-! ## Gaps -/

/-- **Blanks and whole comments in a row**, with `rest` behind them. A line comment goes up to a
newline or to the end of input, a block comment up to the first star and slash. -/
inductive IsGap (rest : List Char) : List Char → Prop where
  | nil : IsGap rest []
  | blank {c : Char} {more : List Char} (hc : isBlank c = true) (hmore : IsGap rest more) :
      IsGap rest (c :: more)
  | line {opener body more : List Char} (hopener : opener = ['/', '/'] ∨ opener = [';'])
      (hbody : '\n' ∉ body) (hend : AtLineEnd (more ++ rest)) (hmore : IsGap rest more) :
      IsGap rest (opener ++ (body ++ more))
  | block {body more : List Char} (hbody : ¬ ['*', '/'] <:+: body ++ ['*'])
      (hmore : IsGap rest more) : IsGap rest ('/' :: '*' :: (body ++ '*' :: '/' :: more))

/-- Does a text begin with a blank or a comment? -/
def beginsTrivia : List Char → Bool
  | '/' :: '/' :: _ | '/' :: '*' :: _ => true
  | c :: _ => c == ';' || isBlank c
  | [] => false

/-- A gap stays one in front of another text, if that begins with the end of a line too. -/
theorem IsGap.congr {rest rest' gap : List Char} (h : IsGap rest gap)
    (hrest : AtLineEnd rest → AtLineEnd rest') : IsGap rest' gap := by
  induction h with
  | nil => exact .nil
  | blank hc _ ih => exact .blank hc ih
  | @line opener body more hopener hbody hend _ ih =>
    refine .line hopener hbody ?_ ih
    cases more with
    | nil => exact hrest hend
    | cons c more => exact hend
  | block hbody _ ih => exact .block hbody ih

/-- A line that is broken behind a gap leaves a gap. -/
theorem IsGap.newline {rest rest' gap : List Char} (h : IsGap rest gap) :
    IsGap rest' (gap ++ ['\n']) := by
  induction h with
  | nil => exact .blank rfl .nil
  | blank hc _ ih => exact .blank hc ih
  | @line opener body more hopener hbody hend _ ih =>
    rw [List.append_assoc, List.append_assoc]
    refine .line hopener hbody ?_ ih
    cases more with
    | nil => rfl
    | cons c more => exact hend
  | @block body more hbody _ ih =>
    have h := IsGap.block hbody ih
    simpa using h

theorem endOfLine_append (read : Nat) {body rest : List Char} (hbody : '\n' ∉ body)
    (hend : AtLineEnd rest) : endOfLine ⟨read, body ++ rest⟩ = ⟨read + body.length, rest⟩ := by
  have hall : ∀ c ∈ body, (c != '\n') = true := by
    intro c hc
    simp only [bne_iff_ne]
    rintro rfl
    exact hbody hc
  have htake : rest.takeWhile (· != '\n') = [] := by
    cases rest with
    | nil => rfl
    | cons c rest => simp [show c = '\n' from hend]
  have hdrop : rest.dropWhile (· != '\n') = rest := by
    cases rest with
    | nil => rfl
    | cons c rest => simp [show c = '\n' from hend]
  simp only [endOfLine, Cursor.skipWhile, List.takeWhile_append_of_pos hall,
    List.dropWhile_append_of_pos hall, htake, hdrop, List.append_nil]

/-- What stands before the end of a line. -/
theorem endOfLine_splits (c : Cursor) : ∃ body, c.rest = body ++ (endOfLine c).rest ∧
    '\n' ∉ body ∧ AtLineEnd (endOfLine c).rest ∧ (endOfLine c).read = c.read + body.length := by
  refine ⟨c.rest.takeWhile (· != '\n'), List.takeWhile_append_dropWhile.symm, ?_, ?_, rfl⟩
  · intro h
    simpa using List.mem_takeWhile_imp h
  · have hnot := List.head?_dropWhile_not (· != '\n') c.rest
    simp only [endOfLine, Cursor.skipWhile]
    cases hrest : c.rest.dropWhile (· != '\n') with
    | nil => trivial
    | cons d rest =>
      rw [hrest] at hnot
      simpa [AtLineEnd] using hnot

/-- **Skipping leads over a gap.** -/
theorem skipTrivia_append (read : Nat) {gap rest : List Char} (h : IsGap rest gap) :
    skipTrivia ⟨read, gap ++ rest⟩ = skipTrivia ⟨read + gap.length, rest⟩ := by
  induction h generalizing read with
  | nil => rfl
  | @blank c more hc _ ih =>
    have hne : c ≠ '/' ∧ c ≠ ';' := by
      constructor <;>
      · rintro rfl
        cases hc
    rw [List.cons_append, skipTrivia, if_neg hne.2, if_pos hc, ih, List.length_cons]
    · congr 2
      omega
    · exact fun _ h => absurd h hne.1
    · exact fun _ h => absurd h hne.1
  | @line opener body more hopener hbody hend _ ih =>
    rcases hopener with rfl | rfl
    · simp only [List.cons_append, List.nil_append, List.append_assoc]
      rw [skipTrivia, endOfLine_append _ hbody hend, ih]
      simp only [List.length_cons, List.length_append]
      congr 2
      omega
    · simp only [List.cons_append, List.nil_append, List.append_assoc]
      rw [skipTrivia, if_pos rfl, endOfLine_append _ hbody hend, ih]
      · simp only [List.length_cons, List.length_append]
        congr 2
        omega
      · exact fun _ h => absurd h (by decide)
      · exact fun _ h => absurd h (by decide)
  | @block body more hbody _ ih =>
    have hcomment : skipBlockComment ⟨read, '/' :: '*' :: (body ++ '*' :: '/' :: (more ++ rest))⟩ =
        .ok () ⟨read + body.length + 4, more ++ rest⟩ :=
      skipBlockComment_eq_ok.mpr ⟨body, rfl, hbody, rfl⟩
    simp only [List.cons_append, List.append_assoc]
    rw [skipTrivia_comment, hcomment]
    dsimp only
    rw [ih]
    simp only [List.length_cons, List.length_append]
    congr 2
    omega

theorem skipTrivia_of_not_begins (read : Nat) {rest : List Char} (h : beginsTrivia rest = false) :
    skipTrivia ⟨read, rest⟩ = .ok () ⟨read, rest⟩ := by
  unfold beginsTrivia at h
  split at h
  · cases h
  · cases h
  · next c rest hline hblock =>
    simp only [Bool.or_eq_false_iff, beq_eq_false_iff_ne, ne_eq] at h
    rw [skipTrivia, if_neg h.1, if_neg (by simp [h.2])]
    · exact hline
    · exact hblock
  · rw [skipTrivia]

/-- **Skipping stops behind the longest gap.** -/
theorem skipTrivia_eq_ok {c d : Cursor} {u : Unit} :
    skipTrivia c = .ok u d ↔ ∃ gap, c.rest = gap ++ d.rest ∧ IsGap d.rest gap ∧
      beginsTrivia d.rest = false ∧ d.read = c.read + gap.length := by
  constructor
  · intro h
    fun_induction skipTrivia c with
    | case1 read =>
      cases h
      exact ⟨[], rfl, .nil, rfl, rfl⟩
    | case2 read rest ih =>
      obtain ⟨gap, hrest, hgap, hbegins, hread⟩ := ih h
      obtain ⟨body, hline, hbody, hend, hcount⟩ := endOfLine_splits ⟨read + 2, rest⟩
      rw [hrest] at hline hend
      dsimp only at hline
      refine ⟨['/', '/'] ++ (body ++ gap), by simp [hline], .line (.inl rfl) hbody hend hgap,
        hbegins, ?_⟩
      simp only [hread, hcount, List.length_append, List.length_cons, List.length_nil]
      omega
    | case3 => cases h
    | case4 read rest _ after hcomment _ ih =>
      obtain ⟨gap, hrest, hgap, hbegins, hread⟩ := ih h
      obtain ⟨body, hinput, hbody, hcount⟩ := skipBlockComment_eq_ok.mp hcomment
      rw [hrest] at hinput
      refine ⟨'/' :: '*' :: (body ++ '*' :: '/' :: gap), by simp [hinput], .block hbody hgap,
        hbegins, ?_⟩
      simp only [hread, hcount, List.length_append, List.length_cons]
      omega
    | case5 read rest _ _ ih =>
      obtain ⟨gap, hrest, hgap, hbegins, hread⟩ := ih h
      obtain ⟨body, hline, hbody, hend, hcount⟩ := endOfLine_splits ⟨read + 1, rest⟩
      rw [hrest] at hline hend
      dsimp only at hline
      refine ⟨[';'] ++ (body ++ gap), by simp [hline], .line (.inr rfl) hbody hend hgap, hbegins, ?_⟩
      simp only [hread, hcount, List.length_append, List.length_cons, List.length_nil]
      omega
    | case6 read c rest _ _ _ hblank ih =>
      obtain ⟨gap, hrest, hgap, hbegins, hread⟩ := ih h
      refine ⟨c :: gap, by rw [List.cons_append, ← hrest], .blank hblank hgap, hbegins, ?_⟩
      simp only [hread, List.length_cons]
      omega
    | case7 read c rest hline hblock hsemi hblank =>
      cases h
      refine ⟨[], rfl, .nil, ?_, rfl⟩
      unfold beginsTrivia
      split
      · next heq =>
        cases heq
        exact absurd rfl (hline _ rfl)
      · next heq =>
        cases heq
        exact absurd rfl (hblock _ rfl)
      · next heq =>
        cases heq
        simpa using And.intro hsemi hblank
      · rfl
  · obtain ⟨read, input⟩ := c
    obtain ⟨after, rest⟩ := d
    rintro ⟨gap, hinput, hgap, hbegins, hread⟩
    dsimp only at hinput hgap hbegins hread
    rw [hinput, hread, skipTrivia_append read hgap, skipTrivia_of_not_begins _ hbegins]

/-! ## Ends of tokens -/

namespace Scanner

/-- Where the scanner succeeds it has come to an end, and its result has a property. -/
def ComesToEnd {α : Type} (m : Scanner α) (P : α → Prop) : Prop :=
  ∀ c a d, m c = .ok a d → P a ∧ AtEnd d.rest

variable {α β : Type}

theorem bind_succeeds {m : Scanner α} {f : α → Scanner β} {c e : Cursor} {b : β} :
    (m >>= f) c = .ok b e ↔ ∃ a d, m c = .ok a d ∧ f a d = .ok b e := by
  rw [bind_apply]
  cases m c with
  | ok a d => simp
  | error fault d => simp

theorem expectEnd_eq_ok {cause : Char → LexFault} {c d : Cursor} {u : Unit} :
    Scanner.expectEnd cause c = .ok u d ↔ AtEnd c.rest ∧ c = d := by
  obtain ⟨read, rest⟩ := c
  cases rest with
  | nil =>
    change EStateM.Result.ok () _ = _ ↔ _
    simp [AtEnd]
  | cons next rest =>
    change (if isTerminator next then pure () else failHere (cause next) : Scanner Unit) _ = _ ↔ _
    split_ifs with h
    · change EStateM.Result.ok () _ = _ ↔ _
      simp [AtEnd, h]
    · change EStateM.Result.error _ _ = _ ↔ _
      simp [AtEnd, h]

theorem ComesToEnd.bind (m : Scanner α) {f : α → Scanner β} {P : β → Prop}
    (hf : ∀ a, (f a).ComesToEnd P) : (m >>= f).ComesToEnd P := by
  intro c b e h
  obtain ⟨a, d, -, h⟩ := bind_succeeds.mp h
  exact hf a d b e h

/-- Nothing is read after the end. -/
theorem ComesToEnd.expectEnd {cause : Char → LexFault} {f : Unit → Scanner β} {P : β → Prop}
    (hf : ∀ c b d, f () c = .ok b d → P b ∧ c = d) :
    (Scanner.expectEnd cause >>= f).ComesToEnd P := by
  intro c b e h
  obtain ⟨_, d, h₁, h₂⟩ := bind_succeeds.mp h
  obtain ⟨hend, rfl⟩ := expectEnd_eq_ok.mp h₁
  obtain ⟨hb, rfl⟩ := hf c b e h₂
  exact ⟨hb, hend⟩

end Scanner

open Scanner

theorem scanQuoted_comesToEnd :
    scanQuoted.ComesToEnd fun result => ∃ terminated, result.1 = .string terminated := by
  refine .bind _ fun start => .bind _ fun _ => .bind _ fun bytes => .bind _ fun terminated => ?_
  refine .expectEnd fun c b d h => ?_
  cases h
  exact ⟨⟨terminated, rfl⟩, rfl⟩

theorem scanNumber_comesToEnd :
    scanNumber.ComesToEnd fun result => ∃ type, result.1 = .number type := by
  refine .bind _ fun start => .bind _ fun numeral => .expectEnd fun c b d h => ?_
  obtain ⟨finish, c', hget, h⟩ := bind_succeeds.mp h
  cases hget
  cases hvalue : numeral.evaluate (String.ofList (start.textTo c)) with
  | ok result =>
    rw [hvalue] at h
    cases h
    exact ⟨⟨result.1, rfl⟩, rfl⟩
  | error cause =>
    rw [hvalue] at h
    cases h

theorem wordToken_ne_eof (word : String) : (wordToken word).1 ≠ .eof := by
  unfold wordToken
  split
  · simp
  · next kind _ h =>
    rintro rfl
    cases TokenKind.isFixed_of_ofSpelling? h
  · simp

theorem scanWord_comesToEnd : scanWord.ComesToEnd fun result => result.1 ≠ .eof := by
  refine .bind _ fun word => .expectEnd fun c b d h => ?_
  cases h
  exact ⟨wordToken_ne_eof _, rfl⟩

/-- Is it the kind of a bracket? -/
def TokenKind.isBracket : TokenKind → Bool
  | .opening _ | .closing _ => true
  | _ => false

theorem isBracket_of_bracketKind? {c : Char} {kind : TokenKind} (h : bracketKind? c = some kind) :
    kind.isBracket = true := by
  unfold bracketKind? at h
  split at h
  · cases h
    rfl
  · obtain ⟨bracket, -, rfl⟩ := Option.map_eq_some_iff.mp h
    rfl

/-- **What a token can be**, by its first character. -/
theorem scanToken_cases {c d : Cursor} {result : TokenKind × TokenValue}
    (h : scanToken c = .ok result d) :
    (c.rest = [] ∧ result = (.eof, .none) ∧ c = d) ∨
    ((∃ rest, c.rest = '\x22' :: rest) ∧ scanQuoted c = .ok result d) ∨
    ((∃ first rest, c.rest = first :: rest ∧
      (Base.decimal.isDigit first ∨ first = '+' ∨ first = '-')) ∧ scanNumber c = .ok result d) ∨
    (∃ first kind, c.rest = first :: d.rest ∧ bracketKind? first = some kind ∧
      result = (kind, .none) ∧ d.read = c.read + 1) ∨
    ((∃ first rest, c.rest = first :: rest ∧ isWordStart first) ∧ scanWord c = .ok result d) := by
  unfold scanToken at h
  split at h
  · cases h
    exact .inl ⟨rfl, rfl, rfl⟩
  · next read first rest =>
    split at h
    · next hquote => exact .inr (.inl ⟨⟨rest, by rw [hquote]⟩, h⟩)
    · split at h
      · next hnumber => exact .inr (.inr (.inl ⟨⟨first, rest, rfl, hnumber⟩, h⟩))
      · split at h
        · next kind hkind =>
          cases h
          exact .inr (.inr (.inr (.inl ⟨first, kind, rfl, hkind, rfl, rfl⟩)))
        · split at h
          · next hword => exact .inr (.inr (.inr (.inr ⟨⟨first, rest, rfl, hword⟩, h⟩)))
          · cases h

/-- **A token that is no bracket comes to an end**, and only the end of input is no token. -/
theorem atEnd_of_scanToken {c d : Cursor} {result : TokenKind × TokenValue}
    (h : scanToken c = .ok result d) :
    (result.1.isBracket = true ∨ AtEnd d.rest) ∧ (result.1 = .eof → c.rest = [] ∧ c = d) := by
  rcases scanToken_cases h with ⟨hrest, -, rfl⟩ | ⟨-, h⟩ | ⟨-, h⟩ | ⟨_, kind, -, hkind, rfl, -⟩ |
    ⟨-, h⟩
  · rw [hrest]
    exact ⟨.inr trivial, fun _ => ⟨rfl, rfl⟩⟩
  · obtain ⟨⟨_, hkind⟩, hend⟩ := scanQuoted_comesToEnd _ _ _ h
    exact ⟨.inr hend, fun h => by rw [hkind] at h; cases h⟩
  · obtain ⟨⟨_, hkind⟩, hend⟩ := scanNumber_comesToEnd _ _ _ h
    exact ⟨.inr hend, fun h => by rw [hkind] at h; cases h⟩
  · have hbracket := isBracket_of_bracketKind? hkind
    refine ⟨.inl hbracket, ?_⟩
    rintro rfl
    cases hbracket
  · obtain ⟨hkind, hend⟩ := scanWord_comesToEnd _ _ _ h
    exact ⟨.inr hend, fun h => absurd h hkind⟩

/-! ## Progress -/

theorem Numeral.scanInteger_movesOn (start : Nat) (base : Base) :
    (scanInteger start base).MovesOn := by
  refine (scanDigits_movesOn base .missingDigits).bind fun digits => ?_
  split
  · exact (MovesOn.failAt _ _).bind fun _ => .pure _
  · exact .pure _

theorem Numeral.scan_movesOn : Numeral.scan.MovesOn := by
  refine MovesOn.get.bind fun start => scanSign_movesOn.bind fun sign => ?_
  refine (scanBase_movesOn start.read sign).bind fun base => ?_
  refine (scanInteger_movesOn start.read base).bind fun integer => ?_
  refine (scanFraction_movesOn base).bind fun fraction => ?_
  refine (scanExponent_movesOn base).bind fun exponent => ?_
  exact (scanSuffix_movesOn _).bind fun _ => .pure _

theorem scanNumber_movesOn : scanNumber.MovesOn := by
  refine MovesOn.get.bind fun start => Numeral.scan_movesOn.bind fun numeral => ?_
  refine (MovesOn.expectEnd _).bind fun _ => MovesOn.get.bind fun finish => ?_
  split
  · exact .pure _
  · exact .failAt _ _

theorem scanQuoted_movesOn : scanQuoted.MovesOn := by
  refine MovesOn.get.bind fun start => (MovesOn.skip 1).bind fun _ => ?_
  refine (scanQuotedBytes_movesOn start.read).bind fun bytes => ?_
  refine scanTerminatedMark_movesOn.bind fun terminated => ?_
  exact (MovesOn.expectEnd _).bind fun _ => .pure _

theorem scanWord_movesOn : scanWord.MovesOn :=
  (MovesOn.takeWhile _).bind fun _ => (MovesOn.expectEnd _).bind fun _ => .pure _

theorem reaches_of_eq_ok {α : Type} {m : Scanner α} (hm : m.MovesOn) {c d : Cursor} {a : α}
    (h : m c = .ok a d) : c.Reaches d := by
  have := hm c
  rw [h] at this
  exact this

/-- **Reading a token never goes back.** -/
theorem reaches_of_scanToken {c d : Cursor} {result : TokenKind × TokenValue}
    (h : scanToken c = .ok result d) : c.Reaches d := by
  rcases scanToken_cases h with ⟨-, -, rfl⟩ | ⟨-, h⟩ | ⟨-, h⟩ | ⟨first, _, hrest, -, -, hread⟩ |
    ⟨-, h⟩
  · exact .refl c
  · exact reaches_of_eq_ok scanQuoted_movesOn h
  · exact reaches_of_eq_ok scanNumber_movesOn h
  · exact ⟨[first], hrest, hread⟩
  · exact reaches_of_eq_ok scanWord_movesOn h

/-! ## Reading one token -/

namespace Lexer

/-- **What reading one token means.** -/
structure Reads (lexer : Lexer) (gap : List Char) (token : Token) (after : Lexer) : Prop where
  input : lexer.input = gap ++ (token.text.toList ++ after.input)
  isGap : IsGap (token.text.toList ++ after.input) gap
  begins : beginsTrivia (token.text.toList ++ after.input) = false
  scans : scanToken (.start (token.text.toList ++ after.input)) =
    .ok (token.kind, token.value) ⟨token.text.toList.length, after.input⟩
  token_location : token.location = lexer.location.advanceBy gap
  token_index : token.index = lexer.count
  location : after.location = lexer.location.advanceBy (gap ++ token.text.toList)
  count : after.count = lexer.count + 1
  pending : after.pending = lexer.pending

/-- **A token is read behind the longest gap.** -/
theorem fresh_eq_ok {lexer after : Lexer} {token : Token} :
    lexer.fresh = (.ok token, after) ↔ ∃ gap, lexer.Reads gap token after := by
  constructor
  · intro h
    unfold fresh at h
    split at h
    · cases h
    · next stop htrivia =>
      obtain ⟨gap, hinput, hgap, hbegins, hread⟩ := skipTrivia_eq_ok.mp htrivia
      dsimp only at h
      split at h
      · cases h
      · next kind value finish hscan =>
        cases h
        obtain ⟨text, htext, hcount⟩ := reaches_of_scanToken hscan
        simp only [Cursor.start, moveTo, Nat.zero_add] at hinput hread hscan htext hcount
        have hgapText : lexer.input.take stop.read = gap := by
          rw [hinput, hread, List.take_left]
        have hwordText : stop.rest.take finish.read = text := by
          rw [htext, hcount, List.take_left]
        refine ⟨gap, ?_, ?_, ?_, ?_, ?_, rfl, ?_, rfl, rfl⟩ <;>
          simp only [moveTo, place, hgapText, hwordText, String.toList_ofList, Location.advanceBy_append]
        · rw [← htext, hinput]
        · rwa [← htext]
        · rwa [← htext]
        · rw [← htext, ← hcount]
          exact hscan
  · rintro ⟨gap, h⟩
    have htrivia : skipTrivia (.start lexer.input) =
        .ok () ⟨gap.length, token.text.toList ++ after.input⟩ :=
      skipTrivia_eq_ok.mpr ⟨gap, h.input, h.isGap, h.begins, by simp [Cursor.start]⟩
    obtain ⟨kind, location, index, value, text⟩ := token
    obtain ⟨input, place', count, pending⟩ := after
    obtain ⟨hinput, -, -, hscan, hlocation, hindex, hplace, hcount, hpending⟩ := h
    dsimp only at *
    unfold fresh
    rw [htrivia]
    simp only [moveTo, hscan, place, hinput, hlocation, hindex, hplace, hcount, hpending,
      List.take_left, String.ofList_toList, Location.advanceBy_append]

/-- Where no gap comes first, the next token is the one at the front. -/
theorem next_scanToken {lexer : Lexer} (hpending : lexer.pending = none)
    (hbegins : beginsTrivia lexer.input = false) :
    lexer.next.1 = match scanToken (.start lexer.input) with
      | .error fault _ => .error ⟨fault.cause, lexer.place fault.place⟩
      | .ok (kind, value) stop => .ok ⟨kind, lexer.location, lexer.count, value,
          String.ofList (lexer.input.take stop.read)⟩ := by
  have hmove : lexer.moveTo (.start lexer.input) = lexer := rfl
  have htrivia : skipTrivia (.start lexer.input) = .ok () (.start lexer.input) :=
    skipTrivia_of_not_begins 0 hbegins
  rw [next, hpending]
  dsimp only
  rw [fresh, htrivia]
  dsimp only
  rw [hmove]
  cases scanToken (.start lexer.input) with
  | ok result stop => rfl
  | error fault stop => rfl

/-! ## Reading several tokens -/

/-- A token and the gap before it. -/
structure Piece where
  gap : List Char
  token : Token

/-- The characters of a piece. -/
def Piece.chars (p : Piece) : List Char := p.gap ++ p.token.text.toList

/-- **Reading tokens one after the other.** -/
inductive Scans : Lexer → List Piece → Lexer → Prop where
  | nil (lexer : Lexer) : Scans lexer [] lexer
  | cons {lexer middle after : Lexer} {p : Piece} {pieces : List Piece}
      (hread : lexer.Reads p.gap p.token middle) (hmore : Scans middle pieces after) :
      Scans lexer (p :: pieces) after

theorem Reads.kind_ne_none {lexer after : Lexer} {gap : List Char} {token : Token}
    (h : lexer.Reads gap token after) : token.kind ≠ .none :=
  (fresh_faithful (fresh_eq_ok.mpr ⟨gap, h⟩)).2

/-- The end of input has no text, and nothing behind it. -/
theorem Reads.eof {lexer after : Lexer} {gap : List Char} {token : Token}
    (h : lexer.Reads gap token after) (hk : token.kind = .eof) :
    token.text = "" ∧ after.input = [] := by
  obtain ⟨hrest, hstop⟩ := (atEnd_of_scanToken h.scans).2 hk
  obtain ⟨htext, hafter⟩ := List.append_eq_nil_iff.mp hrest
  exact ⟨String.toList_eq_nil_iff.mp htext, hafter⟩

/-- Every other token has a text. -/
theorem Reads.text_ne_nil {lexer after : Lexer} {gap : List Char} {token : Token}
    (h : lexer.Reads gap token after) (hk : token.kind ≠ .eof) : token.text.toList ≠ [] := by
  intro hnil
  have hlt := length_lt_of_scanToken h.scans hk
  simp [Cursor.start, hnil] at hlt

theorem Reads.isStop {lexer after : Lexer} {gap : List Char} {token : Token}
    (h : lexer.Reads gap token after) : token.kind.isStop = true ↔ token.kind = .eof := by
  have := h.kind_ne_none
  cases hkind : token.kind <;> simp_all [TokenKind.isStop]

/-- **A run begins with the token that is read first.** -/
theorem run_of_reads {lexer after : Lexer} {gap : List Char} {token : Token}
    (hpending : lexer.pending = none) (h : lexer.Reads gap token after) :
    lexer.run = if token.kind = .eof then ⟨[token], none, after⟩
      else { after.run with tokens := token :: after.run.tokens } := by
  have hnext : lexer.next = (.ok token, after) := by
    rw [next_eq_fresh hpending]
    exact fresh_eq_ok.mpr ⟨gap, h⟩
  rw [run]
  split
  · next heq =>
    rw [hnext] at heq
    cases heq
  · next heq =>
    rw [hnext] at heq
    cases heq
    simp only [h.isStop]
    split_ifs <;> rfl

theorem reads_of_run {lexer : Lexer} (hpending : lexer.pending = none) {token : Token}
    {rest : List Token} (h : lexer.run.tokens = token :: rest) :
    ∃ gap after, lexer.Reads gap token after ∧
      rest = if token.kind = .eof then [] else after.run.tokens := by
  cases hfresh : lexer.fresh with
  | mk result after =>
    cases result with
    | error e =>
      rw [run] at h
      split at h
      · cases h
      · next heq =>
        rw [next_eq_fresh hpending, hfresh] at heq
        cases heq
    | ok first =>
      obtain ⟨gap, hread⟩ := fresh_eq_ok.mp hfresh
      rw [run_of_reads hpending hread] at h
      refine ⟨gap, after, ?_⟩
      split_ifs at h with hk
      · cases h
        exact ⟨hread, (if_pos hk).symm⟩
      · cases h
        exact ⟨hread, (if_neg hk).symm⟩

section Scans

variable {lexer after : Lexer} {pieces : List Piece}

theorem Scans.pending (h : lexer.Scans pieces after) : after.pending = lexer.pending := by
  induction h with
  | nil => rfl
  | cons hread _ ih => exact ih.trans hread.pending

theorem Scans.append {middle : Lexer} {more : List Piece} (h : lexer.Scans pieces middle)
    (hmore : middle.Scans more after) : lexer.Scans (pieces ++ more) after := by
  induction h with
  | nil => exact hmore
  | cons hread _ ih => exact .cons hread (ih hmore)

/-- The pieces and what is left make up the input. -/
theorem Scans.input (h : lexer.Scans pieces after) :
    lexer.input = pieces.flatMap Piece.chars ++ after.input := by
  induction h with
  | nil => rfl
  | cons hread _ ih =>
    rw [hread.input, ih, List.flatMap_cons, Piece.chars]
    simp only [List.append_assoc]

/-- Tokens are numbered in the order in which they are read. -/
theorem Scans.count (h : lexer.Scans pieces after) : after.count = lexer.count + pieces.length := by
  induction h with
  | nil => rfl
  | cons hread _ ih =>
    rw [ih, hread.count, List.length_cons]
    omega

/-- Every piece is read from what the pieces before it leave. -/
theorem Scans.reads {before rest : List Piece} {p : Piece}
    (h : lexer.Scans (before ++ p :: rest) after) :
    ∃ here next, lexer.Scans before here ∧ here.Reads p.gap p.token next ∧ next.Scans rest after := by
  induction before generalizing lexer with
  | nil =>
    cases h with
    | cons hread hmore => exact ⟨lexer, _, .nil lexer, hread, hmore⟩
  | cons q before ih =>
    cases h with
    | cons hread hmore =>
      obtain ⟨here, next, hbefore, hp, hrest⟩ := ih hmore
      exact ⟨here, next, .cons hread hbefore, hp, hrest⟩

/-- **A run begins with the tokens that are read first.** -/
theorem run_of_scans (hpending : lexer.pending = none) (h : lexer.Scans pieces after)
    (hkinds : ∀ p ∈ pieces, p.token.kind ≠ .eof) :
    lexer.run = { after.run with tokens := pieces.map Piece.token ++ after.run.tokens } := by
  induction h with
  | nil => rfl
  | cons hread _ ih =>
    have ⟨hp, hmore⟩ := List.forall_mem_cons.mp hkinds
    rw [run_of_reads hpending hread, if_neg hp, ih (hread.pending.trans hpending) hmore]
    rfl

/-- **Every token of a run is read from what the tokens before it leave.** -/
theorem scans_of_run (hpending : lexer.pending = none) {before rest : List Token} {token : Token}
    (h : lexer.run.tokens = before ++ token :: rest) :
    ∃ pieces here gap next, lexer.Scans pieces here ∧ pieces.map Piece.token = before ∧
      here.Reads gap token next := by
  induction before generalizing lexer with
  | nil =>
    obtain ⟨gap, next, hread, -⟩ := reads_of_run hpending h
    exact ⟨[], lexer, gap, next, .nil lexer, rfl, hread⟩
  | cons first before ih =>
    obtain ⟨gap, middle, hread, hrest⟩ := reads_of_run hpending h
    have hkind : first.kind ≠ .eof := fun hk => by
      rw [if_pos hk] at hrest
      simp at hrest
    rw [if_neg hkind] at hrest
    obtain ⟨pieces, here, gap', next, hscans, hmap, hnext⟩ :=
      ih (hread.pending.trans hpending) hrest.symm
    exact ⟨⟨gap, first⟩ :: pieces, here, gap', next, .cons hread hscans, by rw [List.map_cons, hmap],
      hnext⟩

end Scans

/-! ## Whole texts -/

/-- **A text cut into tokens and the gaps before them.** -/
structure IsPartition (source : List Char) (tokens : List Token) (pieces : List Piece) : Prop where
  tokens_eq : tokens = pieces.map Piece.token
  /-- No character is lost, and none stands in two pieces. -/
  source_eq : source = pieces.flatMap Piece.chars
  /-- The end of input comes last, and only it has no text. -/
  ends : ∃ before last, pieces = before ++ [last] ∧ last.token.kind = .eof ∧
    last.token.text = "" ∧ ∀ p ∈ before, p.token.kind ≠ .eof ∧ p.token.text ≠ ""
  kind_ne : ∀ token ∈ tokens, token.kind ≠ .none
  /-- Every gap is made of blanks and comments, and every token but a bracket comes to an end. -/
  splits : ∀ before p after, pieces = before ++ p :: after →
    IsGap (p.token.text.toList ++ after.flatMap Piece.chars) p.gap ∧
      (p.token.kind.isBracket = true ∨ AtEnd (after.flatMap Piece.chars))

/-- **Reading loses nothing and splits nothing wrongly.** -/
theorem tokenize_isPartition {source : List Char} {tokens : List Token}
    (h : (ofChars source).tokenize.1 = .ok tokens) :
    ∃ pieces, IsPartition source tokens pieces := by
  obtain ⟨herror, rfl⟩ : (ofChars source).run.error = none ∧ (ofChars source).run.tokens = tokens := by
    cases herror : (ofChars source).run.error <;> simp_all [tokenize]
  obtain ⟨inits, last, htokens, hlast, hinits⟩ := (run_ofChars_whole source).ends herror
  obtain ⟨before, here, gap, next, hbefore, hmap, hread⟩ := scans_of_run rfl htokens
  obtain ⟨htext, hrest⟩ := hread.eof hlast
  have hscans : (ofChars source).Scans (before ++ [⟨gap, last⟩]) next :=
    hbefore.append (.cons hread (.nil next))
  have htokens_eq : (ofChars source).run.tokens = (before ++ [Piece.mk gap last]).map Piece.token := by
    rw [htokens, List.map_append, hmap]
    rfl
  have hsplit {first rest : List Piece} {p : Piece}
      (hpieces : before ++ [⟨gap, last⟩] = first ++ p :: rest) :
      ∃ here next, Reads here p.gap p.token next ∧ next.input = rest.flatMap Piece.chars := by
    rw [hpieces] at hscans
    obtain ⟨here, next, -, hp, hmore⟩ := hscans.reads
    have hinput := hmore.input
    rw [hrest, List.append_nil] at hinput
    exact ⟨here, next, hp, hinput⟩
  refine ⟨before ++ [⟨gap, last⟩], htokens_eq, ?_, ⟨before, ⟨gap, last⟩, rfl, hlast, htext, ?_⟩, ?_,
    ?_⟩
  · have hinput := hscans.input
    rw [hrest, List.append_nil] at hinput
    exact hinput
  · intro p hp
    have hkind : p.token.kind ≠ .eof := by
      intro hk
      have := hinits p.token (hmap ▸ List.mem_map_of_mem hp)
      rw [hk] at this
      cases this
    obtain ⟨first, rest, rfl⟩ := List.append_of_mem hp
    obtain ⟨_, _, -, hp, -⟩ := hbefore.reads
    exact ⟨hkind, fun h => hp.text_ne_nil hkind (by rw [h]; rfl)⟩
  · intro token htoken
    rw [htokens_eq] at htoken
    obtain ⟨p, hp, rfl⟩ := List.mem_map.mp htoken
    obtain ⟨first, rest, hpieces⟩ := List.append_of_mem hp
    obtain ⟨_, _, hp, -⟩ := hsplit hpieces
    exact hp.kind_ne_none
  · intro first p rest hpieces
    obtain ⟨_, _, hp, hinput⟩ := hsplit hpieces
    rw [← hinput]
    exact ⟨hp.isGap, (atEnd_of_scanToken hp.scans).1⟩

/-- A text with all three kinds of comments, the last one ended by the end of input. -/
theorem isPartition_comments :
    ∃ pieces, IsPartition "/**/-1\x7b ; x\n\"\x7d\"c\x7d// y".toList
      (ofChars "/**/-1\x7b ; x\n\"\x7d\"c\x7d// y".toList).run.tokens pieces :=
  tokenize_isPartition (by decide +kernel)

end Lexer

end StackCompiler
