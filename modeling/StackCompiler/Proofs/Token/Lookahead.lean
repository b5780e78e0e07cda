import StackCompiler.Proofs.Token.Partition

/-!
# Tokens put back

A lexer that takes tokens back is a plain sequence of results with room for one token in front of it.
The results are those of reading on and on, over errors and past the end of input.

* `Lexer.results`: the results of reading without putting anything back.
* `Lookahead`: how many of them have been taken, and the token that waits.
* **`Lexer.index_of_results`**, **`Lexer.results_eof`**: the tokens among the results are numbered in
  order, and the end of input is never left.
* **`Lexer.calls_refine`**: every sequence of calls.
* **`Lexer.nextAgain_eq_next`**: reading a token again changes nothing.
-/

namespace StackCompiler

/-! ## Calls -/

/-- What can be asked of a lexer. -/
inductive LexerCall where
  /-- The next token. -/
  | next
  /-- To take a token back, whatever it is. -/
  | putBack (token : Token)

/-- What a lexer answers. -/
inductive LexerAnswer where
  | next (result : Except LexError Token)
  | putBack (result : Except LexError Unit)

namespace Lexer

/-- One call. -/
def call (lexer : Lexer) : LexerCall → LexerAnswer × Lexer
  | .next => (.next lexer.next.1, lexer.next.2)
  | .putBack token => (.putBack (lexer.putBack token).1, (lexer.putBack token).2)

/-- **The answers to calls in a row**, and the lexer after them. -/
def calls (lexer : Lexer) : List LexerCall → List LexerAnswer × Lexer
  | [] => ([], lexer)
  | c :: rest =>
    let (answers, last) := calls (lexer.call c).2 rest
    ((lexer.call c).1 :: answers, last)

/-- The lexer after a number of calls for the next token, and no others. -/
def readOn (lexer : Lexer) : Nat → Lexer
  | 0 => lexer
  | n + 1 => (lexer.readOn n).next.2

/-- **The results of calls for the next token, and no others.** An error is one of them, and does not
end them. -/
def results (lexer : Lexer) (n : Nat) : Except LexError Token := (lexer.readOn n).next.1

end Lexer

/-- **A sequence of results with room for one token in front of it.** -/
structure Lookahead where
  /-- How many results have been taken. -/
  taken : Nat
  /-- The token that waits. -/
  waiting : Option Token

namespace Lookahead

variable (results : Nat → Except LexError Token)

/-- One call. The token that waits comes first, and only one can wait. -/
def call (state : Lookahead) : LexerCall → LexerAnswer × Lookahead
  | .next =>
    match state.waiting with
    | some token => (.next (.ok token), ⟨state.taken, none⟩)
    | none => (.next (results state.taken), ⟨state.taken + 1, none⟩)
  | .putBack token =>
    match state.waiting with
    | some _ => (.putBack (.error ⟨.lookaheadOverflow, token.location⟩), state)
    | none => (.putBack (.ok ()), ⟨state.taken, some token⟩)

/-- The answers to calls in a row, and the state after them. -/
def calls (state : Lookahead) : List LexerCall → List LexerAnswer × Lookahead
  | [] => ([], state)
  | c :: rest =>
    let (answers, last) := calls (state.call results c).2 rest
    ((state.call results c).1 :: answers, last)

end Lookahead

namespace Lexer

/-! ## Reading on -/

/-- **Reading from a text whose characters are used up** gives the end of input, and goes no further. -/
theorem fresh_nil {lexer : Lexer} (h : lexer.input = []) :
    lexer.fresh = (.ok ⟨.eof, lexer.location, lexer.count, .none, ""⟩,
      { lexer with count := lexer.count + 1 }) := by
  obtain ⟨input, location, count, pending⟩ := lexer
  dsimp only at h
  subst h
  simp only [fresh, Cursor.start, skipTrivia, moveTo, place, scanToken, List.take_nil]
  rfl

theorem count_of_fresh_error {lexer after : Lexer} {e : LexError}
    (h : lexer.fresh = (.error e, after)) : after.count = lexer.count := by
  unfold fresh at h
  split at h
  · cases h
    rfl
  · dsimp only at h
    split at h
    · cases h
      rfl
    · cases h

/-- **What reading does to the count of tokens**: a token takes its number, an error none. -/
theorem count_fresh (lexer : Lexer) :
    lexer.fresh.2.count = lexer.count + if lexer.fresh.1.isOk then 1 else 0 := by
  cases hfresh : lexer.fresh with
  | mk result after =>
    cases result with
    | ok token =>
      obtain ⟨gap, hreads⟩ := fresh_eq_ok.mp hfresh
      exact hreads.count
    | error e => exact count_of_fresh_error hfresh

section Plain

variable {lexer : Lexer} (hpending : lexer.pending = none)

include hpending

theorem pending_readOn (n : Nat) : (lexer.readOn n).pending = none := by
  induction n with
  | zero => exact hpending
  | succ n ih => rw [readOn, next_eq_fresh ih, pending_fresh, ih]

theorem next_readOn (n : Nat) : (lexer.readOn n).next = (lexer.readOn n).fresh :=
  next_eq_fresh (pending_readOn hpending n)

/-- The count of tokens is that of the results that are tokens. -/
theorem count_readOn (n : Nat) :
    (lexer.readOn n).count =
      lexer.count + (List.range n).countP fun i => (lexer.results i).isOk := by
  induction n with
  | zero => rfl
  | succ n ih =>
    rw [readOn, next_readOn hpending, count_fresh, ih, List.range_succ, List.countP_append,
      List.countP_singleton, results, next_readOn hpending, Nat.add_assoc]

/-- **Tokens are numbered in the order of the results**, and errors take no number. -/
theorem index_of_results {n : Nat} {token : Token} (h : lexer.results n = .ok token) :
    token.index = lexer.count + (List.range n).countP fun i => (lexer.results i).isOk := by
  rw [results, next_readOn hpending] at h
  obtain ⟨gap, hreads⟩ := fresh_eq_ok.mp (Prod.ext_iff.mpr ⟨h, rfl⟩)
  rw [hreads.token_index, count_readOn hpending]

/-- Nothing is left to read from the first end of input on. -/
theorem readOn_of_eof {n : Nat} {token : Token} (h : lexer.results n = .ok token)
    (hkind : token.kind = .eof) (m : Nat) :
    (lexer.readOn (n + 1 + m)).input = [] ∧
      (lexer.readOn (n + 1 + m)).location = token.location := by
  induction m with
  | zero =>
    rw [results, next_readOn hpending] at h
    obtain ⟨gap, hreads⟩ := fresh_eq_ok.mp (Prod.ext_iff.mpr ⟨h, rfl⟩)
    obtain ⟨htext, hinput⟩ := hreads.eof hkind
    rw [Nat.add_zero, readOn, next_readOn hpending]
    refine ⟨hinput, ?_⟩
    rw [hreads.location, hreads.token_location, htext]
    simp
  | succ m ih =>
    rw [← Nat.add_assoc, readOn, next_readOn hpending, fresh_nil ih.1]
    exact ih

/-- **The end of input is never left.** -/
theorem results_eof {n m : Nat} {token : Token} (h : lexer.results n = .ok token)
    (hkind : token.kind = .eof) (hm : n < m) :
    ∃ later, lexer.results m = .ok later ∧ later.kind = .eof ∧ later.location = token.location := by
  obtain ⟨k, rfl⟩ := Nat.exists_eq_add_of_le hm
  obtain ⟨hinput, hlocation⟩ := readOn_of_eof hpending h hkind k
  rw [results, next_readOn hpending, fresh_nil hinput]
  exact ⟨_, rfl, rfl, hlocation⟩

end Plain

/-! ## Sequences of calls -/

/-- The lexer that has given so many results and holds the token that waits. -/
def ofLookahead (lexer : Lexer) (state : Lookahead) : Lexer :=
  { lexer.readOn state.taken with pending := state.waiting }

section Calls

variable {lexer : Lexer} (hpending : lexer.pending = none)

include hpending

/-- **One call** answers as the sequence of results does. -/
theorem call_ofLookahead (state : Lookahead) (c : LexerCall) :
    (lexer.ofLookahead state).call c =
      ((state.call lexer.results c).1, lexer.ofLookahead (state.call lexer.results c).2) := by
  obtain ⟨taken, waiting⟩ := state
  cases c with
  | next =>
    cases waiting with
    | some token => rfl
    | none =>
      have hself : lexer.ofLookahead ⟨taken, none⟩ = lexer.readOn taken := by
        rw [ofLookahead, ← pending_readOn hpending taken]
      have hnext : lexer.ofLookahead ⟨taken + 1, none⟩ = (lexer.readOn taken).next.2 := by
        rw [ofLookahead, ← pending_readOn hpending (taken + 1)]
        rfl
      simp only [call, Lookahead.call, hself, hnext]
      rfl
  | putBack token => cases waiting <;> rfl

/-- **Calls in a row** answer as the sequence of results does. -/
theorem calls_ofLookahead (state : Lookahead) (cs : List LexerCall) :
    (lexer.ofLookahead state).calls cs =
      ((state.calls lexer.results cs).1, lexer.ofLookahead (state.calls lexer.results cs).2) := by
  induction cs generalizing state with
  | nil => rfl
  | cons c cs ih =>
    simp only [calls, Lookahead.calls, call_ofLookahead hpending, ih]

end Calls

/-- **A lexer that takes tokens back is a sequence of results with room for one token in front of
it**, whatever the text and the calls. The results are those of the same text with nothing put back.
Their tokens are numbered in order from zero on, and errors take no number. Behind an end of input
come only ends of input at the same place. -/
theorem calls_refine (text : List Char) (cs : List LexerCall) :
    let results := (ofChars text).results
    let reference := Lookahead.calls results ⟨0, none⟩ cs
    (ofChars text).calls cs = (reference.1, (ofChars text).ofLookahead reference.2) ∧
      (∀ n token, results n = .ok token →
        token.index = (List.range n).countP fun i => (results i).isOk) ∧
      ∀ n m token, results n = .ok token → token.kind = .eof → n < m →
        ∃ later, results m = .ok later ∧ later.kind = .eof ∧ later.location = token.location := by
  have hpending : (ofChars text).pending = none := rfl
  refine ⟨calls_ofLookahead hpending ⟨0, none⟩ cs, fun n token h => ?_, fun n m token h hkind hm => ?_⟩
  · rw [index_of_results hpending h]
    exact Nat.zero_add _
  · exact results_eof hpending h hkind hm

/-- A literal that ends wrongly is read over. The end of input, once read, comes again and again. -/
theorem calls_refine_resumed :
    let results := (ofChars "1x b".toList).results
    results 0 = .error ⟨.trailingSymbol 'x', ⟨1, 2⟩⟩ ∧
      results 1 = .ok ⟨.identifier, ⟨1, 2⟩, 0, .text "x", "x"⟩ ∧
      results 3 = .ok ⟨.eof, ⟨1, 5⟩, 2, .none, ""⟩ ∧
      ∃ later, results 1000 = .ok later ∧ later.kind = .eof ∧ later.location = ⟨1, 5⟩ := by
  intro results
  have heof : results 3 = .ok ⟨.eof, ⟨1, 5⟩, 2, .none, ""⟩ := by decide +kernel
  refine ⟨by decide +kernel, by decide +kernel, heof, ?_⟩
  exact (calls_refine "1x b".toList []).2.2 3 1000 _ heof rfl (by decide)

/-! ## Reading again -/

/-- **Puts back the token that was read last and reads again**, a number of times. -/
def reread (lexer : Lexer) (token : Token) : Nat → Except LexError Token × Lexer
  | 0 => (.ok token, lexer)
  | n + 1 =>
    match lexer.putBack token with
    | (.error e, after) => (.error e, after)
    | (.ok (), after) =>
      match after.next with
      | (.error e, after) => (.error e, after)
      | (.ok token, after) => after.reread token n

/-- **Reads the next token and then reads it again**, as often as `times` says for it. -/
def nextAgain (lexer : Lexer) (times : Token → Nat) : Except LexError Token × Lexer :=
  match lexer.next with
  | (.error e, after) => (.error e, after)
  | (.ok token, after) => after.reread token (times token)

/-- No token waits after one was read. -/
theorem pending_next (lexer : Lexer) : lexer.next.2.pending = none := by
  unfold next
  split
  · rfl
  · next h => rw [pending_fresh, h]

/-- There is room for the token that was read last, and it comes back as it was. -/
theorem reread_eq {lexer : Lexer} (h : lexer.pending = none) (token : Token) (n : Nat) :
    lexer.reread token n = (.ok token, lexer) := by
  induction n with
  | zero => rfl
  | succ n ih =>
    have hput : lexer.putBack token = (.ok (), { lexer with pending := some token }) := by
      rw [putBack, h]
    have hself : { lexer with pending := none } = lexer := by rw [← h]
    simp only [reread, hput, next, hself, ih]

/-- **A token that is put back and read again changes nothing**, however often, and is never one too
many to wait. -/
theorem nextAgain_eq_next (lexer : Lexer) (times : Token → Nat) :
    lexer.nextAgain times = lexer.next := by
  have hpending := pending_next lexer
  unfold nextAgain
  split
  · next h => rw [h]
  · next h =>
    rw [h] at hpending ⊢
    exact reread_eq hpending _ _

end Lexer

end StackCompiler
