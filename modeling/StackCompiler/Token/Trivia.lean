import StackCompiler.Token.Scanner

/-!
# Blanks and comments

Between tokens stand blanks, line comments and block comments. A line comment begins with two
slashes or a semicolon and goes up to the end of its line. A block comment goes from a slash and a star
up to a star and a slash, and is read in rounds of one or two characters.

* `commentRound`: one round inside a block comment.
* `skipBlockComment`: a whole block comment.
* `skipTrivia`: the place after all blanks and comments.
-/

namespace StackCompiler

/-! ## Block comments -/

/-- Reads the end of a block comment, or the star with which it could have begun. -/
def acceptCommentEnd : Scanner Bool := do
  if ← Scanner.accept '*' then Scanner.accept '/' else return false

/-- **One round inside a block comment**: has it come to the end? If not, one more character is skipped,
unless it is a star, with which the end may begin. -/
def commentRound : Scanner Bool := do
  let closed ← acceptCommentEnd
  if !closed && (← Scanner.peek) != some '*' then Scanner.skip 1
  return closed

theorem acceptCommentEnd_cons (read : Nat) (c : Char) (rest : List Char) :
    acceptCommentEnd ⟨read, c :: rest⟩ =
      if c = '*' then Scanner.accept '/' ⟨read + 1, rest⟩ else .ok false ⟨read, c :: rest⟩ := by
  rw [acceptCommentEnd, Scanner.bind_apply, Scanner.accept_cons]
  by_cases hc : c = '*'
  · rw [if_pos hc, if_pos hc]
    rfl
  · rw [if_neg hc, if_neg hc]
    rfl

theorem commentRound_of_not_closed {c d : Cursor} (h : acceptCommentEnd c = .ok false d) :
    commentRound c = .ok false (if d.rest.head? != some '*' then d.skip 1 else d) := by
  rw [commentRound, Scanner.bind_apply, h]
  change (if d.rest.head? != some '*' then Scanner.skip 1 >>= fun _ => pure false
    else pure false : Scanner Bool) d = _
  split <;> rfl

/-- **What a round reads**: one character, or a star and the one behind it, unless that is a star. -/
theorem commentRound_eq (read : Nat) (input : List Char) :
    commentRound ⟨read, input⟩ = match input with
      | [] => .ok false ⟨read, []⟩
      | '*' :: '/' :: rest => .ok true ⟨read + 2, rest⟩
      | '*' :: '*' :: rest => .ok false ⟨read + 1, '*' :: rest⟩
      | '*' :: _ :: rest => .ok false ⟨read + 2, rest⟩
      | _ :: rest => .ok false ⟨read + 1, rest⟩ := by
  split
  · rfl
  · rfl
  · rfl
  · next c rest hslash hstar =>
    have haccept : acceptCommentEnd ⟨read, '*' :: c :: rest⟩ = .ok false ⟨read + 1, c :: rest⟩ := by
      rw [acceptCommentEnd_cons, if_pos rfl, Scanner.accept_cons, if_neg hslash]
    rw [commentRound_of_not_closed haccept]
    simp [show ¬ c = '*' from hstar, Cursor.skip]
  · next c rest _ _ hother =>
    by_cases hc : c = '*'
    · subst hc
      cases rest with
      | nil => rfl
      | cons d rest => exact absurd rfl (hother d rest rfl)
    · have haccept : acceptCommentEnd ⟨read, c :: rest⟩ = .ok false ⟨read, c :: rest⟩ := by
        rw [acceptCommentEnd_cons, if_neg hc]
      rw [commentRound_of_not_closed haccept]
      simp [hc, Cursor.skip]

/-- Every round reads on. -/
theorem reaches_of_commentRound {c d : Cursor} {closed : Bool} (h : commentRound c = .ok closed d) :
    c.Reaches d ∧ (c.rest ≠ [] → d.rest.length < c.rest.length) := by
  obtain ⟨read, input⟩ := c
  rw [commentRound_eq] at h
  split at h <;> cases h
  · exact ⟨.refl _, fun h => absurd rfl h⟩
  · exact ⟨⟨['*', '/'], rfl, rfl⟩, fun _ => Nat.lt_succ_of_lt (Nat.lt_succ_self _)⟩
  · exact ⟨⟨['*'], rfl, rfl⟩, fun _ => Nat.lt_succ_self _⟩
  · exact ⟨⟨['*', _], rfl, rfl⟩, fun _ => Nat.lt_succ_of_lt (Nat.lt_succ_self _)⟩
  · exact ⟨Cursor.reaches_cons .., fun _ => Nat.lt_succ_self _⟩

/-- **Rounds up to the end of a comment**, or of the input. `opening` is where the comment begins. -/
def skipComment (opening : Nat) : Scanner Unit
  | ⟨read, []⟩ => .error ⟨opening, .unterminatedComment⟩ ⟨read, []⟩
  | ⟨read, c :: rest⟩ =>
    match h : commentRound ⟨read, c :: rest⟩ with
    | .error fault after => .error fault after
    | .ok true after => .ok () after
    | .ok false after =>
      have := (reaches_of_commentRound h).2 (List.cons_ne_nil c rest)
      skipComment opening after
termination_by c => c.rest.length
decreasing_by exact this

/-- **Skips a block comment**, which begins with a slash and a star. One that never ends is a fault at
its opening, with the whole input read. -/
def skipBlockComment : Scanner Unit := do
  let opening ← get
  Scanner.skip 2
  skipComment opening.read

theorem skipComment_movesOn (opening : Nat) : (skipComment opening).MovesOn := by
  intro c
  fun_induction skipComment opening c with
  | case1 => exact .refl _
  | case2 read c rest fault after h =>
    rw [commentRound_eq] at h
    split at h <;> cases h
  | case3 read c rest after h => exact (reaches_of_commentRound h).1
  | case4 read c rest after h _ ih => exact (reaches_of_commentRound h).1.trans ih

theorem skipBlockComment_movesOn : skipBlockComment.MovesOn := by
  refine Scanner.MovesOn.get.bind fun opening => (Scanner.MovesOn.skip 2).bind fun _ => ?_
  exact skipComment_movesOn opening.read

/-- Behind its opening, a block comment is read in rounds. -/
theorem skipBlockComment_cons (read : Nat) (rest : List Char) :
    skipBlockComment ⟨read, '/' :: '*' :: rest⟩ = skipComment read ⟨read + 2, rest⟩ := rfl

theorem length_rest_skipBlockComment_lt (read : Nat) (rest : List Char) :
    (cursorAfter (skipBlockComment ⟨read, '/' :: '*' :: rest⟩)).rest.length <
      ('/' :: '*' :: rest).length := by
  rw [skipBlockComment_cons]
  exact Nat.lt_succ_of_le (Nat.le_succ_of_le (skipComment_movesOn read ⟨read + 2, rest⟩).length_le)

/-! ## Gaps -/

/-- The end of the line at a place. -/
def endOfLine (c : Cursor) : Cursor := c.skipWhile (· != '\n')

theorem reaches_endOfLine (c : Cursor) : c.Reaches (endOfLine c) := c.reaches_skipWhile _

/-- **Skips blanks and comments.** -/
def skipTrivia : Scanner Unit
  | ⟨read, []⟩ => .ok () ⟨read, []⟩
  | ⟨read, '/' :: '/' :: rest⟩ => skipTrivia (endOfLine ⟨read + 2, rest⟩)
  | ⟨read, '/' :: '*' :: rest⟩ =>
    match h : skipBlockComment ⟨read, '/' :: '*' :: rest⟩ with
    | .error fault stop => .error fault stop
    | .ok _ after =>
      have : after.rest.length < ('/' :: '*' :: rest).length := by
        have := length_rest_skipBlockComment_lt read rest
        rw [h] at this
        exact this
      skipTrivia after
  | ⟨read, c :: rest⟩ =>
    if c = ';' then skipTrivia (endOfLine ⟨read + 1, rest⟩)
    else if isBlank c then skipTrivia ⟨read + 1, rest⟩
    else .ok () ⟨read, c :: rest⟩
termination_by c => c.rest.length
decreasing_by
  · exact Nat.lt_succ_of_le (Nat.le_succ_of_le (reaches_endOfLine _).length_le)
  · exact this
  · exact Nat.lt_succ_of_le (reaches_endOfLine _).length_le
  · exact Nat.lt_succ_self _

theorem skipTrivia_movesOn : skipTrivia.MovesOn := by
  intro c
  fun_induction skipTrivia c with
  | case1 => exact .refl _
  | case2 read rest ih =>
    exact (Cursor.Reaches.trans ⟨['/', '/'], rfl, rfl⟩ (reaches_endOfLine _)).trans ih
  | case3 read rest fault stop h =>
    have := skipBlockComment_movesOn ⟨read, '/' :: '*' :: rest⟩
    rw [h] at this
    exact this
  | case4 read rest _ after h _ ih =>
    have := skipBlockComment_movesOn ⟨read, '/' :: '*' :: rest⟩
    rw [h] at this
    exact Cursor.Reaches.trans this ih
  | case5 read rest _ _ ih => exact ((Cursor.reaches_cons ..).trans (reaches_endOfLine _)).trans ih
  | case6 read c rest _ _ _ _ ih => exact (Cursor.reaches_cons ..).trans ih
  | case7 => exact .refl _

end StackCompiler
