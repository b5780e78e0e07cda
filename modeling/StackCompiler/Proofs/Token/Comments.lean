import Mathlib.Data.List.Infix
import StackCompiler.Token.Lexer

/-!
# Ends of block comments

A block comment is read in rounds, and some of them read two characters at once. Nevertheless it ends
behind the first star and slash after its opening: a round never reads over a star that a slash follows,
since the only star it reads on its way is one whose next character it has seen.

* `endOfComment?`: the place after the first star and slash, looked for character by character.
* **`endOfComment?_commentRound`**: what one round does to that place.
* **`skipComment_eq`**: what all rounds together do.
* `skipBlockComment_eq_ok`, `skipBlockComment_eq_error`: a whole comment.
* **`skipBlockComment_first`**: the first end of a comment.
-/

namespace StackCompiler

/-! ## Looking for the end -/

/-- **The place after the first star and slash**, if there is one. -/
def endOfComment? (read : Nat) : List Char → Option Cursor
  | '*' :: '/' :: rest => some ⟨read + 2, rest⟩
  | _ :: rest => endOfComment? (read + 1) rest
  | [] => none

/-- Nothing but a star and a slash is an end. -/
theorem endOfComment?_cons (read : Nat) {c : Char} {rest : List Char}
    (h : ∀ more, c = '*' → rest ≠ '/' :: more) :
    endOfComment? read (c :: rest) = endOfComment? (read + 1) rest := by
  rw [endOfComment?]
  exact h

/-- The first star and slash ends a block comment. -/
theorem endOfComment?_eq_some (read : Nat) {input : List Char} {c : Cursor} :
    endOfComment? read input = some c ↔ ∃ body, input = body ++ '*' :: '/' :: c.rest ∧
      ¬ ['*', '/'] <:+: body ++ ['*'] ∧ c.read = read + body.length + 2 := by
  fun_induction endOfComment? read input with
  | case1 read rest =>
    constructor
    · intro h
      cases h
      exact ⟨[], rfl, by decide, rfl⟩
    · rintro ⟨body, hinput, hfirst, hread⟩
      cases body with
      | nil =>
        obtain ⟨cread, crest⟩ := c
        simp_all
      | cons d body =>
        -- otherwise the comment would go on behind its first end
        have hd : d = '*' := by simpa using (congrArg List.head? hinput).symm
        obtain ⟨e, tail, hbody⟩ : ∃ e tail, body ++ ['*'] = e :: tail := by
          cases body <;> simp
        have hcons : '/' :: rest = body ++ '*' :: '/' :: c.rest := (List.cons.inj hinput).2
        have he : e = '/' := by
          cases body with
          | nil => simp at hcons
          | cons b body =>
            have hb : '/' = b := (List.cons.inj hcons).1
            rw [hb]
            exact (List.cons.inj hbody).1.symm
        refine absurd ?_ hfirst
        rw [List.cons_append, hbody, hd, he]
        exact ⟨[], tail, rfl⟩
  | case2 read d rest hne ih =>
    rw [ih]
    constructor
    · rintro ⟨body, hinput, hfirst, hread⟩
      refine ⟨d :: body, by rw [hinput]; rfl, ?_, by rw [hread, List.length_cons]; omega⟩
      rw [List.cons_append, List.infix_cons_iff, not_or]
      refine ⟨?_, hfirst⟩
      rintro ⟨tail, htail⟩
      obtain ⟨rfl, hrest⟩ := List.cons.inj htail
      cases body with
      | nil => simp at hrest
      | cons b body =>
        obtain ⟨rfl, -⟩ := List.cons.inj hrest
        exact hne _ rfl hinput
    · rintro ⟨body, hinput, hfirst, hread⟩
      cases body with
      | nil =>
        obtain ⟨rfl, hrest⟩ := List.cons.inj hinput
        exact absurd hrest (hne _ rfl)
      | cons b body =>
        obtain ⟨rfl, hrest⟩ := List.cons.inj hinput
        refine ⟨body, hrest, fun h => hfirst (List.infix_cons h), ?_⟩
        rw [hread, List.length_cons]
        omega
  | case3 => simp

/-- There is no end exactly where no star and slash stand. -/
theorem endOfComment?_eq_none (read : Nat) {input : List Char} :
    endOfComment? read input = none ↔ ¬ ['*', '/'] <:+: input := by
  fun_induction endOfComment? read input with
  | case1 read rest => simpa using ⟨[], rest, rfl⟩
  | case2 read d rest hne ih =>
    rw [ih, List.infix_cons_iff, not_or, iff_and_self]
    rintro - ⟨more, hmore⟩
    obtain ⟨rfl, hrest⟩ := List.cons.inj hmore
    exact hne more rfl hrest.symm
  | case3 => simp

/-! ## Rounds -/

/-- **One round** either comes to the end of the comment, or leaves it where it is. -/
theorem endOfComment?_commentRound {c d : Cursor} {closed : Bool}
    (h : commentRound c = .ok closed d) :
    endOfComment? c.read c.rest = if closed then some d else endOfComment? d.read d.rest := by
  obtain ⟨read, input⟩ := c
  rw [commentRound_eq] at h
  split at h <;> cases h
  · rfl
  · rfl
  · exact endOfComment?_cons read (by simp)
  · next c rest hslash hstar =>
    -- the star is no beginning of an end, and neither is the character behind it
    rw [if_neg Bool.false_ne_true, endOfComment?_cons read (by simpa using hslash)]
    exact endOfComment?_cons (read + 1) fun _ h => absurd h hstar
  · next c rest hclose _ _ => exact endOfComment?_cons read hclose

/-- **All rounds** come to the first end, or to the end of the input. -/
theorem skipComment_eq (opening : Nat) (c : Cursor) :
    skipComment opening c = match endOfComment? c.read c.rest with
      | some after => .ok () after
      | none => .error ⟨opening, .unterminatedComment⟩ ⟨c.read + c.rest.length, []⟩ := by
  fun_induction skipComment opening c with
  | case1 read => rfl
  | case2 read c rest fault after h =>
    rw [commentRound_eq] at h
    split at h <;> cases h
  | case3 read c rest after h => rw [endOfComment?_commentRound h, if_pos rfl]
  | case4 read c rest after h _ ih =>
    obtain ⟨run, hrun, hread⟩ := (reaches_of_commentRound h).1
    have hlength : after.read + after.rest.length = read + (c :: rest).length := by
      dsimp only at hrun hread
      rw [hrun, hread, List.length_append]
      omega
    rw [endOfComment?_commentRound h, if_neg Bool.false_ne_true, ih, hlength]

/-! ## Comments -/

section Comment

variable {read : Nat} {rest : List Char}

theorem skipBlockComment_eq : skipBlockComment ⟨read, '/' :: '*' :: rest⟩ =
    match endOfComment? (read + 2) rest with
      | some after => .ok () after
      | none => .error ⟨read, .unterminatedComment⟩ ⟨read + 2 + rest.length, []⟩ :=
  skipComment_eq read ⟨read + 2, rest⟩

/-- A block comment ends behind a star and a slash with none before them. -/
theorem skipBlockComment_eq_ok {u : Unit} {after : Cursor} :
    skipBlockComment ⟨read, '/' :: '*' :: rest⟩ = .ok u after ↔
      ∃ body, rest = body ++ '*' :: '/' :: after.rest ∧ ¬ ['*', '/'] <:+: body ++ ['*'] ∧
        after.read = read + body.length + 4 := by
  have hread (n : Nat) : read + 2 + n + 2 = read + n + 4 := by omega
  have hend : endOfComment? (read + 2) rest = some after ↔ _ := endOfComment?_eq_some (read + 2)
  simp only [hread] at hend
  rw [← hend, skipBlockComment_eq]
  cases endOfComment? (read + 2) rest <;> simp

/-- A block comment without an end is a fault at its opening. -/
theorem skipBlockComment_eq_error {fault : ScanFault} {stop : Cursor} :
    skipBlockComment ⟨read, '/' :: '*' :: rest⟩ = .error fault stop ↔
      ¬ ['*', '/'] <:+: rest ∧ fault = ⟨read, .unterminatedComment⟩ ∧
        stop = ⟨read + 2 + rest.length, []⟩ := by
  rw [← endOfComment?_eq_none (read + 2), skipBlockComment_eq]
  cases endOfComment? (read + 2) rest with
  | none => simp [eq_comm]
  | some after => simp

/-- Behind a block comment, blanks and comments are skipped on. -/
theorem skipTrivia_comment : skipTrivia ⟨read, '/' :: '*' :: rest⟩ =
    match skipBlockComment ⟨read, '/' :: '*' :: rest⟩ with
      | .error fault stop => .error fault stop
      | .ok _ after => skipTrivia after := by
  rw [skipTrivia]
  split <;> next h => simp only [h]

end Comment

/-! ## The first end -/

/-- **The first star and slash of a text**, with what stands before them and behind them. -/
structure FirstEnd (text before after : List Char) : Prop where
  text_eq : text = before ++ '*' :: '/' :: after
  length_le : ∀ before' after', text = before' ++ '*' :: '/' :: after' →
    before.length ≤ before'.length

/-- Nothing ends a comment earlier than a star and a slash with none before them. -/
theorem FirstEnd.of_none_before {before after : List Char}
    (h : ¬ ['*', '/'] <:+: before ++ ['*']) :
    FirstEnd (before ++ '*' :: '/' :: after) before after := by
  refine ⟨rfl, fun before' after' htext => Nat.le_of_not_lt fun hlt => h ?_⟩
  -- an earlier one would stand before the slash
  have hearly : before' ++ ['*', '/'] <+: before ++ '*' :: '/' :: after :=
    ⟨after', by rw [htext, List.append_assoc]; rfl⟩
  have hlate : before ++ ['*'] <+: before ++ '*' :: '/' :: after :=
    ⟨'/' :: after, List.append_assoc ..⟩
  have hlength : (before' ++ ['*', '/']).length ≤ (before ++ ['*']).length := by
    simp only [List.length_append, List.length_cons, List.length_nil]
    omega
  exact (List.suffix_append before' _).isInfix.trans
    (List.prefix_of_prefix_length_le hearly hlate hlength).isInfix

/-- **A block comment ends at the first star and slash behind its opening**, whatever else stands in it.
Without them it is refused at its opening, and the whole input is read. -/
theorem skipBlockComment_first (read : Nat) (text : List Char) :
    (['*', '/'] <:+: text → ∃ before after, FirstEnd text before after ∧
      skipBlockComment ⟨read, '/' :: '*' :: text⟩ = .ok () ⟨read + before.length + 4, after⟩) ∧
    (¬ ['*', '/'] <:+: text →
      skipBlockComment ⟨read, '/' :: '*' :: text⟩ =
        .error ⟨read, .unterminatedComment⟩ ⟨read + 2 + text.length, []⟩ ∧
      ∀ lexer : Lexer, lexer.pending = none → lexer.input = '/' :: '*' :: text →
        lexer.next = (.error ⟨.unterminatedComment, lexer.location⟩,
          { lexer with input := [], location := lexer.location.advanceBy lexer.input })) := by
  constructor
  · intro hend
    obtain ⟨after, hafter⟩ : ∃ after, endOfComment? (read + 2) text = some after := by
      rw [← Option.ne_none_iff_exists', ne_eq, endOfComment?_eq_none]
      exact not_not_intro hend
    have hskip : skipBlockComment ⟨read, '/' :: '*' :: text⟩ = .ok () after := by
      rw [skipBlockComment_eq, hafter]
    obtain ⟨before, rfl, hfirst, hread⟩ := skipBlockComment_eq_ok.mp hskip
    refine ⟨before, after.rest, .of_none_before hfirst, ?_⟩
    rw [hskip, ← hread]
  · intro hend
    refine ⟨skipBlockComment_eq_error.mpr ⟨hend, rfl, rfl⟩, fun lexer hpending hinput => ?_⟩
    have hskip : skipBlockComment ⟨0, '/' :: '*' :: text⟩ =
        .error ⟨0, .unterminatedComment⟩ ⟨0 + 2 + text.length, []⟩ :=
      skipBlockComment_eq_error.mpr ⟨hend, rfl, rfl⟩
    have hall : 0 + 2 + text.length = lexer.input.length := by
      rw [hinput, List.length_cons, List.length_cons]
      omega
    simp only [Lexer.next, hpending]
    rw [Lexer.fresh, Cursor.start, hinput, skipTrivia_comment, hskip, hall]
    simp only [Lexer.place, Lexer.moveTo, List.take_length, hinput, hpending]
    rfl

/-- In the first comment a slash right behind the opening and two stars end nothing; the second one
begins in the same way, and goes on to the end of input. -/
theorem skipBlockComment_first_stars :
    (∃ before after, FirstEnd "/ ** é***/ x */".toList before after ∧
      skipBlockComment ⟨0, '/' :: '*' :: "/ ** é***/ x */".toList⟩ =
        .ok () ⟨0 + before.length + 4, after⟩) ∧
    skipBlockComment ⟨7, '/' :: '*' :: "/ **".toList⟩ =
      .error ⟨7, .unterminatedComment⟩ ⟨7 + 2 + "/ **".toList.length, []⟩ :=
  ⟨(skipBlockComment_first 0 "/ ** é***/ x */".toList).1 (by decide +kernel),
    ((skipBlockComment_first 7 "/ **".toList).2 (by decide +kernel)).1⟩

end StackCompiler
