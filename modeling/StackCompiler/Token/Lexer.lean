import StackCompiler.Text.Alphabetic
import StackCompiler.Token.Number
import StackCompiler.Token.Quoted
import StackCompiler.Token.Trivia

/-!
# The lexer

* `scanToken`: the kind and value of the token at the front of the input.
* `Lexer`: the input not read yet, its place, the number of tokens read, and a token put back.
* `Lexer.ofBytes`: a lexer over bytes, which have to be UTF-8.
* `Lexer.next`, `Lexer.putBack`: reading one token, putting one back.
* `Lexer.run`, `Lexer.tokenize`: reading all tokens.
-/

namespace StackCompiler

/-- Characters a word can start with. -/
def isWordStart (c : Char) : Bool := isAlphabetic c || "_?!,.$@<>".toList.contains c

/-- Characters a word can go on with. -/
def isWordContinue (c : Char) : Bool := isWordStart c || c.isDigit || c == '-'

/-- **The kind and value of a word.** A word with no fixed meaning is an identifier. -/
def wordToken (word : String) : TokenKind × TokenValue :=
  match TokenKind.ofSpelling? word with
  | some (.operator (.constant value)) => (.operator (.constant value), .int (if value then 1 else 0))
  | some kind => (kind, .none)
  | none => (.identifier, .text word)

/-- Reads a word. -/
def scanWord : Scanner (TokenKind × TokenValue) := do
  let word ← Scanner.takeWhile isWordContinue
  Scanner.expectEnd .invalidCharacter
  return wordToken (String.ofList word)

theorem length_rest_scanWord_lt (read : Nat) {c : Char} (hc : isWordStart c) (rest : List Char) :
    (cursorAfter (scanWord ⟨read, c :: rest⟩)).rest.length < (c :: rest).length := by
  let word : Cursor := Cursor.skipWhile ⟨read, c :: rest⟩ isWordContinue
  have h : word.Reaches (cursorAfter (scanWord ⟨read, c :: rest⟩)) :=
    (Scanner.MovesOn.expectEnd _).bind (fun _ => .pure _) word
  have hw : isWordContinue c = true := by simp [isWordContinue, hc]
  have hword : word.rest = rest.dropWhile isWordContinue := by
    simp only [word, Cursor.skipWhile, List.dropWhile_cons, if_pos hw]
  have hdrop := (List.dropWhile_suffix (l := rest) isWordContinue).length_le
  rw [← hword] at hdrop
  exact Nat.lt_succ_of_le (Nat.le_trans h.length_le hdrop)

/-- The kind of a bracket. -/
def bracketKind? (c : Char) : Option TokenKind :=
  match Bracket.ofOpening? c with
  | some bracket => some (.opening bracket)
  | none => (Bracket.ofClosing? c).map .closing

/-- **Reads the token at the front of the input**, which begins with no blank or comment. -/
def scanToken : Scanner (TokenKind × TokenValue)
  | ⟨read, []⟩ => .ok (.eof, .none) ⟨read, []⟩
  | ⟨read, c :: rest⟩ =>
    if c = '\x22' then scanQuoted ⟨read, c :: rest⟩
    else if Base.decimal.isDigit c ∨ c = '+' ∨ c = '-' then scanNumber ⟨read, c :: rest⟩
    else match bracketKind? c with
      | some kind => .ok (kind, .none) ⟨read + 1, rest⟩
      | none =>
        if isWordStart c then scanWord ⟨read, c :: rest⟩
        else .error ⟨read, .invalidCharacter c⟩ ⟨read, c :: rest⟩

theorem length_lt_of_scanToken {c d : Cursor} {kind : TokenKind} {value : TokenValue}
    (h : scanToken c = .ok (kind, value) d) (hk : kind ≠ .eof) : d.rest.length < c.rest.length := by
  unfold scanToken at h
  split at h
  · cases h
    exact absurd rfl hk
  · next read c tail =>
    split at h
    · have := length_rest_scanQuoted_lt read c tail
      rw [h] at this
      exact this
    · split at h
      · exact scanNumber_advances _ _ _ h
      · split at h
        · cases h
          exact Nat.lt_succ_self _
        · split at h
          · next hstart =>
            have := length_rest_scanWord_lt read hstart tail
            rw [h] at this
            exact this
          · cases h

/-- **A lexer.** -/
structure Lexer where
  /-- The input not read yet. -/
  input : List Char
  /-- The place of its first character. -/
  location : Location
  /-- How many tokens have been read. -/
  count : Nat
  /-- A token that was put back. -/
  pending : Option Token
  deriving DecidableEq, Repr

namespace Lexer

/-- A lexer at the start of a text. -/
def ofChars (input : List Char) : Lexer := ⟨input, .start, 0, none⟩

/-- **A lexer over bytes.** Bytes that are not UTF-8 are refused at the first broken character. -/
def ofBytes (bytes : List UInt8) : Except LexError Lexer :=
  match Utf8.decode bytes with
  | (input, []) => .ok (ofChars input)
  | (input, undecoded) =>
    .error ⟨.invalidUtf8 (bytes.length - undecoded.length), Location.start.advanceBy input⟩

/-- The place after a number of characters. -/
def place (lexer : Lexer) (read : Nat) : Location :=
  lexer.location.advanceBy (lexer.input.take read)

/-- The lexer after the characters before a cursor. -/
def moveTo (lexer : Lexer) (cursor : Cursor) : Lexer :=
  { lexer with input := cursor.rest, location := lexer.place cursor.read }

/-- **Reads the next token from the input.** After an error the lexer stands where reading stopped,
and the error has used up no token number. -/
def fresh (lexer : Lexer) : Except LexError Token × Lexer :=
  match skipTrivia (.start lexer.input) with
  | .error fault stop => (.error ⟨fault.cause, lexer.place fault.place⟩, lexer.moveTo stop)
  | .ok _ gap =>
    let lexer := lexer.moveTo gap
    match scanToken (.start lexer.input) with
    | .error fault stop => (.error ⟨fault.cause, lexer.place fault.place⟩, lexer.moveTo stop)
    | .ok (kind, value) stop =>
      let text := String.ofList (lexer.input.take stop.read)
      (.ok ⟨kind, lexer.location, lexer.count, value, text⟩,
        { lexer.moveTo stop with count := lexer.count + 1 })

/-- **The next token**: the one put back, if there is one, or else the next of the input. -/
def next (lexer : Lexer) : Except LexError Token × Lexer :=
  match lexer.pending with
  | some token => (.ok token, { lexer with pending := none })
  | none => lexer.fresh

/-- **Puts a token back.** Only one token can wait. -/
def putBack (lexer : Lexer) (token : Token) : Except LexError Unit × Lexer :=
  match lexer.pending with
  | some _ => (.error ⟨.lookaheadOverflow, token.location⟩, lexer)
  | none => (.ok (), { lexer with pending := some token })

/-! ## Reading everything -/

/-- A bound on the tokens still to come before the end of input. -/
def todo (lexer : Lexer) : Nat := lexer.input.length + lexer.pending.toList.length

theorem todo_fresh_lt {lexer next : Lexer} {token : Token} (h : lexer.fresh = (.ok token, next))
    (hk : token.kind ≠ .eof) : next.todo < lexer.todo := by
  unfold fresh at h
  split at h
  · cases h
  · next gap htrivia =>
    have htrivia_le := (skipTrivia_movesOn (.start lexer.input)).length_le
    rw [htrivia] at htrivia_le
    dsimp only at h
    split at h
    · cases h
    · next kind value stop hscan =>
      cases h
      have hlt := length_lt_of_scanToken hscan hk
      simp only [cursorAfter, Cursor.start] at htrivia_le
      simp only [Cursor.start, moveTo] at hlt
      simp only [todo, moveTo]
      omega

theorem todo_next_lt {lexer next : Lexer} {token : Token} (h : lexer.next = (.ok token, next))
    (hk : token.kind ≠ .eof) : next.todo < lexer.todo := by
  unfold Lexer.next at h
  split at h
  · next hp =>
    cases h
    simp [todo, hp]
  · exact todo_fresh_lt h hk

/-- **A whole run of a lexer**: the tokens it gave, the error that stopped it, if one did, and where
it stands. Without an error the last token is the one that ends the sequence. -/
structure Run where
  /-- The tokens in order. -/
  tokens : List Token
  /-- What stopped the run before its end. -/
  error : Option LexError
  /-- The lexer after the run. -/
  last : Lexer
  deriving DecidableEq, Repr

/-- **Reads tokens up to the end of input or the first error.** -/
def run (lexer : Lexer) : Run :=
  match h : lexer.next with
  | (.error e, next) => ⟨[], some e, next⟩
  | (.ok token, next) =>
    if hs : token.kind.isStop then ⟨[token], none, next⟩
    else
      have : next.todo < lexer.todo := todo_next_lt h fun hk => hs (by rw [hk]; rfl)
      let rest := run next
      { rest with tokens := token :: rest.tokens }
termination_by lexer.todo

/-- **All tokens up to the end of input**, which is the last of them. -/
def tokenize (lexer : Lexer) : Except LexError (List Token) × Lexer :=
  let whole := lexer.run
  match whole.error with
  | some e => (.error e, whole.last)
  | none => (.ok whole.tokens, whole.last)

end Lexer

end StackCompiler
