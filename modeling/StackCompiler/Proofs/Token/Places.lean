import StackCompiler.Proofs.Token.Lookahead

/-!
# Places of tokens and faults

The line and column of a place can be counted from the text before it alone: the newlines in it, and
the characters behind the last of them. A lexer counts on from token to token instead. Both agree,
also after errors and past the largest line and column.

* `Location.behind`: the line and column counted from the whole text before a place.
* `Scanner.Points`: faults stand between the start of a token and the place where reading stops.
* `skipTrivia_eq_error`: faults between tokens stand at a comment without an end.
* `EndsGap`, **`IsGap.unique`**: one place where a token or a comment without an end begins.
* `Lexer.fails_of_fresh`: what is read when no token is.
* `Lexer.StandsIn`: a lexer that counts rightly, whatever it has been asked.
* **`Lexer.calls_located`**: every token, every error and every lexer.
-/

namespace StackCompiler

/-! ## Counting -/

namespace Location

/-- **The place behind a text**: one more than its newlines, and one more than its characters behind
the last newline. Neither goes past the limit. -/
def behind (text : List Char) : Location where
  line := min (1 + text.count '\n') limit
  column := min (1 + (text.reverse.takeWhile (· != '\n')).length) limit

/-- A counter that stops at the limit counts on as if it had not stopped. -/
theorem bump_min (n : Nat) : bump (min n limit) = min (n + 1) limit := by
  unfold bump
  omega

theorem advance_behind (text : List Char) (c : Char) :
    (behind text).advance c = behind (text ++ [c]) := by
  by_cases hc : c = '\n'
  · rw [advance, if_pos hc, hc]
    simp only [behind, bump_min, List.count_append, List.reverse_append]
    rfl
  · have hline : List.count '\n' [c] = 0 := List.count_eq_zero.mpr (by simpa using Ne.symm hc)
    rw [advance, if_neg hc]
    simp only [behind, bump_min, List.count_append, hline, Nat.add_zero, List.reverse_append,
      List.reverse_cons, List.reverse_nil, List.nil_append, List.singleton_append,
      List.takeWhile_cons, bne_iff_ne, ne_eq, hc, not_false_eq_true, if_true, List.length_cons]
    rfl

/-- **Counting on gives what counting from the start gives.** -/
theorem advanceBy_behind (text more : List Char) :
    (behind text).advanceBy more = behind (text ++ more) := by
  induction more generalizing text with
  | nil => rw [advanceBy_nil, List.append_nil]
  | cons c more ih => rw [advanceBy_cons, advance_behind, ih, List.append_assoc, List.singleton_append]

/-- A place on the second line. -/
example : behind "é\r\nab".toList = ⟨2, 3⟩ := by decide

end Location

/-! ## Places of faults -/

theorem Cursor.Reaches.read_le {c d : Cursor} (h : c.Reaches d) : c.read ≤ d.read := by
  obtain ⟨run, -, hread⟩ := h
  omega

namespace Scanner

/-- **A fault stands at `low` or behind it, and not behind the place where reading stops**, wherever
the scanner begins from `here` on. -/
def Points {α : Type} (low here : Nat) (m : Scanner α) : Prop :=
  ∀ c fault d, here ≤ c.read → m c = .error fault d → low ≤ fault.place ∧ fault.place ≤ d.read

section Laws

variable {α β : Type} {low here : Nat}

theorem Points.bind {m : Scanner α} {f : α → Scanner β} (hm : m.Points low here)
    (hmoves : m.MovesOn) (hf : ∀ a, (f a).Points low here) : (m >>= f).Points low here := by
  intro c fault d hc h
  rw [bind_apply] at h
  have hreaches := (hmoves c).read_le
  cases hr : m c with
  | ok a e =>
    rw [hr] at h hreaches
    exact hf a e fault d (Nat.le_trans hc hreaches) h
  | error stopped e =>
    rw [hr] at h
    cases h
    exact hm c _ _ hc hr

/-- What follows may point at the place where it begins. -/
theorem Points.get {f : Cursor → Scanner β}
    (hf : ∀ c : Cursor, here ≤ c.read → (f c).Points low c.read) :
    ((MonadState.get : Scanner Cursor) >>= f).Points low here :=
  fun c fault d hc h => hf c hc c fault d (Nat.le_refl _) h

theorem Points.pure (a : α) : Points low here (Pure.pure a : Scanner α) := by
  intro c fault d _ h
  cases h

theorem Points.peek : peek.Points low here := by
  intro c fault d _ h
  cases h

theorem Points.skip (n : Nat) : (Scanner.skip n).Points low here := by
  intro c fault d _ h
  cases h

theorem Points.takeWhile (p : Char → Bool) : (Scanner.takeWhile p).Points low here := by
  intro c fault d _ h
  cases h

theorem Points.failAt {place : Nat} (cause : LexFault) (hlow : low ≤ place) (hhere : place ≤ here) :
    Points low here (Scanner.failAt place cause : Scanner α) := by
  intro c fault d hc h
  cases h
  exact ⟨hlow, Nat.le_trans hhere hc⟩

theorem Points.failHere (cause : LexFault) (hlow : low ≤ here) :
    Points low here (Scanner.failHere cause : Scanner α) := by
  intro c fault d hc h
  cases h
  exact ⟨Nat.le_trans hlow hc, Nat.le_refl _⟩

theorem Points.expectEnd (cause : Char → LexFault) (hlow : low ≤ here) :
    (Scanner.expectEnd cause).Points low here := by
  refine Points.peek.bind .peek fun next => ?_
  split
  · exact .pure _
  · split
    · exact .pure _
    · exact .failHere _ hlow

end Laws

end Scanner

open Scanner

/-! ### Numbers -/

namespace Numeral

variable {low here : Nat}

theorem scanSign_points (hlow : low ≤ here) : scanSign.Points low here := by
  refine .get fun c hc => ?_
  split
  · exact .pure _
  · split
    · split
      · exact (Points.skip 1).bind (.skip 1) fun _ => .pure _
      · exact .failAt _ (Nat.le_trans hlow hc) (Nat.le_refl _)
    · exact .pure _

theorem scanBase_points {start : Nat} (sign : Option Char) (hlow : low ≤ start)
    (hstart : start ≤ here) : (scanBase start sign).Points low here := by
  refine .get fun c hc => ?_
  split
  · split
    · exact .pure _
    · split
      · exact .failAt _ hlow (Nat.le_trans hstart hc)
      · exact (Points.skip 2).bind (.skip 2) fun _ => .pure _
  · exact .pure _

theorem scanDigits_points (base : Base) (missing : LexFault) (hlow : low ≤ here) :
    (scanDigits base missing).Points low here := by
  intro c fault d hc h
  unfold scanDigits at h
  split at h
  · split at h <;>
    · cases h
      exact ⟨Nat.le_trans hlow hc, Nat.le_refl _⟩
  · cases h

theorem scanInteger_points {start : Nat} (base : Base) (hlow : low ≤ start) (hstart : start ≤ here) :
    (scanInteger start base).Points low here := by
  refine (scanDigits_points base .missingDigits (Nat.le_trans hlow hstart)).bind
    (scanDigits_movesOn base .missingDigits) fun digits => ?_
  split
  · exact (Points.failAt _ hlow hstart).bind (.failAt _ _) fun _ => .pure _
  · exact .pure _

theorem scanFraction_points (base : Base) : (scanFraction base).Points low here := by
  refine .get fun c _ => ?_
  split
  · split
    · exact (Points.skip 1).bind (.skip 1) fun _ => .takeWhile _
    · exact .pure _
  · exact .pure _

theorem scanExponentSign_points : scanExponentSign.Points low here := by
  refine Points.peek.bind .peek fun next => ?_
  split
  · exact (Points.skip 1).bind (.skip 1) fun _ => .pure _
  · exact (Points.skip 1).bind (.skip 1) fun _ => .pure _
  · exact .pure _

theorem scanExponent_points (base : Base) (hlow : low ≤ here) :
    (scanExponent base).Points low here := by
  refine Points.peek.bind .peek fun next => ?_
  split
  · exact .pure _
  · split
    · refine (Points.skip 1).bind (.skip 1) fun _ => ?_
      refine scanExponentSign_points.bind scanExponentSign_movesOn fun _ => ?_
      exact (scanDigits_points _ _ hlow).bind (scanDigits_movesOn _ _) fun _ => .pure _
    · exact .pure _

theorem scanSuffix_points (real : Bool) (hlow : low ≤ here) : (scanSuffix real).Points low here := by
  refine .get fun c hc => ?_
  have hlow : low ≤ c.read := Nat.le_trans hlow hc
  split
  · exact .pure _
  · split
    · refine (Points.takeWhile _).bind (.takeWhile _) fun suffix => ?_
      dsimp only
      split
      · exact .failAt _ hlow (Nat.le_refl _)
      · split
        · exact .failAt _ hlow (Nat.le_refl _)
        · exact .pure _
    · exact .pure _

theorem scan_points (hlow : low ≤ here) : scan.Points low here := by
  refine .get fun start hstart => ?_
  have hlow : low ≤ start.read := Nat.le_trans hlow hstart
  refine (scanSign_points hlow).bind scanSign_movesOn fun sign => ?_
  refine (scanBase_points sign hlow (Nat.le_refl _)).bind (scanBase_movesOn _ sign) fun base => ?_
  refine (scanInteger_points base hlow (Nat.le_refl _)).bind (scanInteger_movesOn _ base)
    fun integer => ?_
  refine (scanFraction_points base).bind (scanFraction_movesOn base) fun fraction => ?_
  refine (scanExponent_points base hlow).bind (scanExponent_movesOn base) fun exponent => ?_
  exact (scanSuffix_points _ hlow).bind (scanSuffix_movesOn _) fun _ => .pure _

end Numeral

theorem scanNumber_points (low : Nat) : scanNumber.Points low low := by
  refine .get fun start hlow => ?_
  refine (Numeral.scan_points hlow).bind Numeral.scan_movesOn fun numeral => ?_
  refine (Points.expectEnd _ hlow).bind (.expectEnd _) fun _ => ?_
  refine .get fun finish hfinish => ?_
  split
  · exact .pure _
  · exact .failAt _ hlow hfinish

/-! ### Strings -/

/-- A fault in an escape stands at its backslash. -/
theorem Escape.scan_points {low here place : Nat} (hlow : low ≤ place) (hplace : place ≤ here) :
    (Escape.scan place).Points low here := by
  intro c fault d hc h
  have hplace_eq : fault.place = place := by
    unfold Escape.scan at h
    split at h
    · cases h
      rfl
    · dsimp only at h
      split at h
      · cases h
      · cases h
        rfl
      · split at h
        · split at h
          · cases h
          · cases h
            rfl
        · cases h
          rfl
  have hreads := (Escape.scan_movesOn place c).read_le
  rw [h] at hreads
  rw [hplace_eq]
  exact ⟨hlow, Nat.le_trans (Nat.le_trans hplace hc) hreads⟩

/-- A fault between the quotes stands at the opening quote or at a backslash. -/
theorem scanQuotedBytes_points {low here start : Nat} (hlow : low ≤ start) (hstart : start ≤ here) :
    (scanQuotedBytes start).Points low here := by
  intro c fault d hc h
  fun_induction scanQuotedBytes start c with
  | case1 read =>
    cases h
    exact ⟨hlow, Nat.le_trans hstart hc⟩
  | case2 read rest => cases h
  | case3 read rest fault' after hescape _ =>
    cases h
    exact Escape.scan_points (Nat.le_trans (Nat.le_trans hlow hstart) hc) (Nat.le_refl _)
      ⟨read + 1, rest⟩ _ _ (Nat.le_succ _) hescape
  | case4 read rest bytes after hescape _ _ ih =>
    have hafter := (Escape.scan_movesOn read ⟨read + 1, rest⟩).read_le
    rw [hescape] at hafter
    cases hmore : scanQuotedBytes start after with
    | ok more stop =>
      rw [hmore] at h
      cases h
    | error fault' stop =>
      rw [hmore] at h
      cases h
      exact ih (Nat.le_trans hc (Nat.le_trans (Nat.le_succ _) hafter)) hmore
  | case5 read c rest _ _ ih =>
    cases hmore : scanQuotedBytes start ⟨read + 1, rest⟩ with
    | ok more stop =>
      rw [hmore] at h
      cases h
    | error fault' stop =>
      rw [hmore] at h
      cases h
      exact ih (Nat.le_trans hc (Nat.le_succ _)) hmore

theorem scanTerminatedMark_points {low here : Nat} : scanTerminatedMark.Points low here := by
  refine .get fun c _ => ?_
  split
  · exact (Points.skip 1).bind (.skip 1) fun _ => .pure _
  · split
    · exact (Points.skip 1).bind (.skip 1) fun _ => .pure _
    · exact .pure _
  · exact .pure _

theorem scanQuoted_points (low : Nat) : scanQuoted.Points low low := by
  refine .get fun start hlow => ?_
  refine (Points.skip 1).bind (.skip 1) fun _ => ?_
  refine (scanQuotedBytes_points hlow (Nat.le_refl _)).bind (scanQuotedBytes_movesOn _) fun _ => ?_
  refine scanTerminatedMark_points.bind scanTerminatedMark_movesOn fun _ => ?_
  exact (Points.expectEnd _ hlow).bind (.expectEnd _) fun _ => .pure _

/-! ### Tokens -/

theorem scanWord_points (low : Nat) : scanWord.Points low low := by
  refine (Points.takeWhile _).bind (.takeWhile _) fun word => ?_
  exact (Points.expectEnd _ (Nat.le_refl _)).bind (.expectEnd _) fun _ => .pure _

/-- **A fault in a token stands in what was read of it.** -/
theorem place_of_scanToken {c d : Cursor} {fault : ScanFault} (h : scanToken c = .error fault d) :
    c.read ≤ fault.place ∧ fault.place ≤ d.read := by
  unfold scanToken at h
  split at h
  · cases h
  · next read first rest =>
    split at h
    · exact scanQuoted_points read _ _ _ (Nat.le_refl _) h
    · split at h
      · exact scanNumber_points read _ _ _ (Nat.le_refl _) h
      · split at h
        · cases h
        · split at h
          · exact scanWord_points read _ _ _ (Nat.le_refl _) h
          · cases h
            exact ⟨Nat.le_refl _, Nat.le_refl _⟩

theorem reaches_of_scanToken_error {c d : Cursor} {fault : ScanFault}
    (h : scanToken c = .error fault d) : c.Reaches d := by
  have hof {m : Scanner (TokenKind × TokenValue)} (hm : m.MovesOn) {c d : Cursor}
      (h : m c = .error fault d) : c.Reaches d := by
    have := hm c
    rwa [h] at this
  unfold scanToken at h
  split at h
  · cases h
  · split at h
    · exact hof scanQuoted_movesOn h
    · split at h
      · exact hof scanNumber_movesOn h
      · split at h
        · cases h
        · split at h
          · exact hof scanWord_movesOn h
          · cases h
            exact .refl _

/-! ### Comments -/

/-- **A block comment that does not end**, up to the end of the text. -/
def IsUnended (text : List Char) : Prop :=
  ∃ body, text = '/' :: '*' :: body ∧ ¬ ['*', '/'] <:+: body

/-- **Reading stops at a block comment that does not end**, behind a gap. The fault stands at the
opening of the comment, and everything is read. -/
def Cursor.StopsUnended (c : Cursor) (fault : ScanFault) (d : Cursor) : Prop :=
  ∃ gap comment, c.rest = gap ++ comment ∧ IsGap comment gap ∧ IsUnended comment ∧
    fault = ⟨c.read + gap.length, .unterminatedComment⟩ ∧ d = ⟨c.read + c.rest.length, []⟩

/-- What is skipped first belongs to the gap. -/
theorem Cursor.StopsUnended.behind {c d e : Cursor} {fault : ScanFault} (h : e.StopsUnended fault d)
    (front : List Char) (hrest : c.rest = front ++ e.rest) (hread : e.read = c.read + front.length)
    (hfront : ∀ gap comment, e.rest = gap ++ comment → IsGap comment gap →
      IsGap comment (front ++ gap)) : c.StopsUnended fault d := by
  obtain ⟨gap, comment, hsplit, hgap, hunended, rfl, rfl⟩ := h
  refine ⟨front ++ gap, comment, ?_, hfront gap comment hsplit hgap, hunended, ?_, ?_⟩
  · rw [hrest, hsplit, List.append_assoc]
  · rw [hread, List.length_append, Nat.add_assoc]
  · rw [hread, hrest, List.length_append, Nat.add_assoc]

/-- A line comment that is skipped first. -/
theorem Cursor.StopsUnended.behind_line {c d e : Cursor} {fault : ScanFault}
    (h : (endOfLine e).StopsUnended fault d) {opener : List Char}
    (hopener : opener = ['/', '/'] ∨ opener = [';']) (hrest : c.rest = opener ++ e.rest)
    (hread : e.read = c.read + opener.length) : c.StopsUnended fault d := by
  obtain ⟨body, hline, hbody, hend, hcount⟩ := endOfLine_splits e
  refine h.behind (opener ++ body) ?_ ?_ fun gap comment hsplit hgap => ?_
  · rw [hrest, hline, List.append_assoc]
  · rw [hcount, hread, List.length_append, Nat.add_assoc]
  · rw [List.append_assoc]
    exact .line hopener hbody (hsplit ▸ hend) hgap

/-- **A fault between tokens is a block comment that does not end.** -/
theorem skipTrivia_eq_error {c d : Cursor} {fault : ScanFault} (h : skipTrivia c = .error fault d) :
    c.StopsUnended fault d := by
  fun_induction skipTrivia c with
  | case1 => cases h
  | case2 read rest ih => exact (ih h).behind_line (.inl rfl) rfl rfl
  | case3 read rest fault stop hcomment =>
    cases h
    obtain ⟨hnone, rfl, rfl⟩ := skipBlockComment_eq_error.mp hcomment
    refine ⟨[], '/' :: '*' :: rest, rfl, .nil, ⟨rest, rfl, hnone⟩, rfl, ?_⟩
    simp only [List.length_cons, Cursor.mk.injEq, and_true]
    omega
  | case4 read rest _ after hcomment _ ih =>
    obtain ⟨body, hinput, hbody, hcount⟩ := skipBlockComment_eq_ok.mp hcomment
    refine (ih h).behind ('/' :: '*' :: (body ++ ['*', '/'])) ?_ ?_ fun gap comment _ hgap => ?_
    · simp [hinput]
    · simp only [hcount, List.length_cons, List.length_append, List.length_nil, Nat.add_assoc]
    · simpa using IsGap.block hbody hgap
  | case5 read rest _ _ ih => exact (ih h).behind_line (.inr rfl) rfl rfl
  | case6 read first rest _ _ _ hblank ih =>
    exact (ih h).behind [first] rfl rfl fun _ _ _ hgap => .blank hblank hgap
  | case7 => cases h

/-- **Where a gap ends**: before a token, the end of input or a block comment that does not end. -/
def EndsGap (rest : List Char) : Prop := beginsTrivia rest = false ∨ IsUnended rest

/-- Skipping stops or fails where the gap ends. -/
theorem place_of_endsGap {gap rest : List Char} (h : IsGap rest gap) (hend : EndsGap rest) :
    (match skipTrivia (.start (gap ++ rest)) with
      | .ok _ stop => stop.read
      | .error fault _ => fault.place) = gap.length := by
  rw [Cursor.start, skipTrivia_append _ h, Nat.zero_add]
  rcases hend with hbegins | ⟨body, rfl, hnone⟩
  · rw [skipTrivia_of_not_begins _ hbegins]
  · rw [skipTrivia_comment, skipBlockComment_eq_error.mpr ⟨hnone, rfl, rfl⟩]

/-- **A text begins with one gap that ends**: no other part of it is a gap with a token or a comment
without an end behind it. -/
theorem IsGap.unique {gap rest gap' rest' : List Char} (h : IsGap rest gap) (hend : EndsGap rest)
    (h' : IsGap rest' gap') (hend' : EndsGap rest') (htext : gap ++ rest = gap' ++ rest') :
    gap = gap' := by
  have hlength := place_of_endsGap h hend
  rw [htext, place_of_endsGap h' hend'] at hlength
  exact List.append_inj_left htext hlength.symm

/-! ## Errors of a lexer -/

namespace Lexer

/-- **What is read when no token is**: a gap, and the beginning of a token or a block comment that
does not end. The error stands inside that beginning, or at its ends: `inner` of it lies before the
error. -/
structure Fails (lexer : Lexer) (gap inner outer : List Char) (e : LexError) (after : Lexer) :
    Prop where
  input : lexer.input = gap ++ (inner ++ (outer ++ after.input))
  isGap : IsGap (inner ++ (outer ++ after.input)) gap
  begins : beginsTrivia (inner ++ (outer ++ after.input)) = false ∨
    (e.cause = .unterminatedComment ∧ IsUnended (inner ++ (outer ++ after.input)))
  error_location : e.location = lexer.location.advanceBy (gap ++ inner)
  location : after.location = lexer.location.advanceBy (gap ++ (inner ++ outer))

theorem Fails.endsGap {lexer after : Lexer} {gap inner outer : List Char} {e : LexError}
    (h : lexer.Fails gap inner outer e after) : EndsGap (inner ++ (outer ++ after.input)) :=
  h.begins.imp_right And.right

/-- **An error is read behind the longest gap.** -/
theorem fails_of_fresh {lexer after : Lexer} {e : LexError} (h : lexer.fresh = (.error e, after)) :
    ∃ gap inner outer, lexer.Fails gap inner outer e after := by
  unfold fresh at h
  split at h
  · next fault stop htrivia =>
    obtain ⟨gap, comment, hinput, hgap, hunended, rfl, rfl⟩ := skipTrivia_eq_error htrivia
    cases h
    simp only [Cursor.start] at hinput
    refine ⟨gap, [], comment, ?_, ?_, ?_, ?_, ?_⟩ <;>
      simp only [moveTo, place, Cursor.start, Nat.zero_add, hinput, List.nil_append, List.append_nil]
    · exact hgap
    · exact .inr ⟨trivial, hunended⟩
    · rw [List.take_left]
    · rw [List.take_length]
  · next stop htrivia =>
    obtain ⟨gap, hinput, hgap, hbegins, hread⟩ := skipTrivia_eq_ok.mp htrivia
    dsimp only at h
    split at h
    · next fault finish hscan =>
      obtain ⟨hlow, hhigh⟩ := place_of_scanToken hscan
      obtain ⟨text, htext, hcount⟩ := reaches_of_scanToken_error hscan
      cases h
      simp only [Cursor.start, moveTo, Nat.zero_add] at hinput hread htext hcount hlow hhigh
      have hgapText : lexer.input.take stop.read = gap := by
        rw [hinput, hread, List.take_left]
      have hinner : stop.rest.take fault.place = text.take fault.place := by
        rw [htext, List.take_append_of_le_length (by omega)]
      have hall : stop.rest.take finish.read = text := by
        rw [htext, hcount, List.take_left]
      have hsplit : text.take fault.place ++ (text.drop fault.place ++ finish.rest) = stop.rest := by
        rw [← List.append_assoc, List.take_append_drop, htext]
      refine ⟨gap, text.take fault.place, text.drop fault.place, ?_, ?_, ?_, ?_, ?_⟩
      · exact hinput.trans (congrArg (gap ++ ·) hsplit.symm)
      · exact hsplit.symm ▸ hgap
      · exact .inl (hsplit.symm ▸ hbegins)
      · simp only [moveTo, place, hgapText, hinner, Location.advanceBy_append]
      · simp only [moveTo, place, hgapText, hall, List.take_append_drop, Location.advanceBy_append]
    · cases h

/-! ## Sequences of calls -/

end Lexer

/-- **The token stands in the text where it says.** -/
def Token.LocatedIn (token : Token) (text : List Char) : Prop :=
  ∃ before after, text = before ++ token.text.toList ++ after ∧ token.location = .behind before

namespace Lexer

/-- **A lexer that counts rightly**: it has read a first part of the text, and its place is the one
behind that part. -/
def StandsIn (lexer : Lexer) (text : List Char) : Prop :=
  ∃ read, text = read ++ lexer.input ∧ lexer.location = .behind read

theorem standsIn_ofChars (text : List Char) : (ofChars text).StandsIn text := ⟨[], rfl, rfl⟩

variable {lexer : Lexer} {text : List Char}

theorem StandsIn.fresh (h : lexer.StandsIn text) : lexer.fresh.2.StandsIn text := by
  obtain ⟨read, htext, hlocation⟩ := h
  cases hfresh : lexer.fresh with
  | mk result after =>
    cases result with
    | ok token =>
      obtain ⟨gap, hreads⟩ := fresh_eq_ok.mp hfresh
      refine ⟨read ++ (gap ++ token.text.toList), ?_, ?_⟩
      · rw [htext, hreads.input]
        simp only [List.append_assoc]
      · rw [hreads.location, hlocation, Location.advanceBy_behind]
    | error e =>
      obtain ⟨gap, inner, outer, hfails⟩ := fails_of_fresh hfresh
      refine ⟨read ++ (gap ++ (inner ++ outer)), ?_, ?_⟩
      · rw [htext, hfails.input]
        simp only [List.append_assoc]
      · rw [hfails.location, hlocation, Location.advanceBy_behind]

/-- **One call** leaves a lexer that counts rightly. -/
theorem StandsIn.call (h : lexer.StandsIn text) (c : LexerCall) :
    (lexer.call c).2.StandsIn text := by
  cases c with
  | next =>
    simp only [Lexer.call, Lexer.next]
    split
    · exact h
    · exact h.fresh
  | putBack token =>
    simp only [Lexer.call, Lexer.putBack]
    split <;> exact h

/-- **Calls in a row** leave a lexer that counts rightly. -/
theorem StandsIn.calls (h : lexer.StandsIn text) (cs : List LexerCall) :
    (lexer.calls cs).2.StandsIn text := by
  induction cs generalizing lexer with
  | nil => exact h
  | cons c cs ih => exact ih (h.call c)

theorem pending_call (c : LexerCall) {token : Token} (h : (lexer.call c).2.pending = some token) :
    lexer.pending = some token ∨ c = .putBack token := by
  cases c with
  | next =>
    simp only [Lexer.call, Lexer.next] at h
    split at h
    · cases h
    · rw [pending_fresh] at h
      exact .inl h
  | putBack other =>
    simp only [Lexer.call, Lexer.putBack] at h
    split at h
    · exact .inl h
    · cases h
      exact .inr rfl

/-- A token waits only if it was put back. -/
theorem pending_calls (cs : List LexerCall) {token : Token}
    (h : (lexer.calls cs).2.pending = some token) :
    lexer.pending = some token ∨ .putBack token ∈ cs := by
  induction cs generalizing lexer with
  | nil => exact .inl h
  | cons c cs ih =>
    rcases ih h with h | h
    · rcases pending_call c h with h | rfl
      · exact .inl h
      · exact .inr List.mem_cons_self
    · exact .inr (List.mem_cons_of_mem _ h)

/-- What the next call gives, behind the part of the text that was read. -/
theorem located_next (hpending : lexer.pending = none) {read : List Char}
    (htext : text = read ++ lexer.input) (hlocation : lexer.location = .behind read) :
    match lexer.next with
    | (.ok token, after) =>
      ∃ gap, IsGap (token.text.toList ++ after.input) gap ∧
        text = read ++ gap ++ token.text.toList ++ after.input ∧
        token.location = .behind (read ++ gap)
    | (.error e, after) =>
      ∃ gap inner outer, IsGap (inner ++ (outer ++ after.input)) gap ∧
        (beginsTrivia (inner ++ (outer ++ after.input)) = false ∨
          (e.cause = .unterminatedComment ∧ IsUnended (inner ++ (outer ++ after.input)))) ∧
        (∀ gap' rest, lexer.input = gap' ++ rest → IsGap rest gap' → EndsGap rest → gap' = gap) ∧
        text = read ++ gap ++ inner ++ outer ++ after.input ∧
        e.location = .behind (read ++ gap ++ inner) := by
  rw [next_eq_fresh hpending]
  cases hfresh : lexer.fresh with
  | mk result after =>
    cases result with
    | ok token =>
      obtain ⟨gap, hreads⟩ := fresh_eq_ok.mp hfresh
      refine ⟨gap, hreads.isGap, ?_, ?_⟩
      · rw [htext, hreads.input]
        simp only [List.append_assoc]
      · rw [hreads.token_location, hlocation, Location.advanceBy_behind]
    | error e =>
      obtain ⟨gap, inner, outer, hfails⟩ := fails_of_fresh hfresh
      refine ⟨gap, inner, outer, hfails.isGap, hfails.begins, ?_, ?_, ?_⟩
      · intro gap' rest hinput hgap' hend'
        exact hgap'.unique hend' hfails.isGap hfails.endsGap (hinput.symm.trans hfails.input)
      · rw [htext, hfails.input]
        simp only [List.append_assoc]
      · rw [hfails.error_location, hlocation, Location.advanceBy_behind]
        simp only [List.append_assoc]

/-- **Places are exact**, whatever the text and the calls, and also after errors. The lexer stands
behind the text that was read. A token that is read stands behind what was read and the gap before it,
and one that was put back comes back as it was; so if only tokens that stand where they say are put
back, every token stands where it says. An error stands behind what was read, the gap and a part of
the token that could not be read, or of the comment if one does not end: not before its start, of
which there is only one, and not behind the place where reading stopped. -/
theorem calls_located (text : List Char) (cs : List LexerCall) :
    let lexer := ((ofChars text).calls cs).2
    (∃ read, text = read ++ lexer.input ∧ lexer.location = .behind read ∧
      match lexer.next with
      | (.ok token, after) =>
        (lexer.pending = some token ∧ .putBack token ∈ cs) ∨
        (lexer.pending = none ∧ ∃ gap, IsGap (token.text.toList ++ after.input) gap ∧
          text = read ++ gap ++ token.text.toList ++ after.input ∧
          token.location = .behind (read ++ gap))
      | (.error e, after) =>
        ∃ gap inner outer, IsGap (inner ++ (outer ++ after.input)) gap ∧
          (beginsTrivia (inner ++ (outer ++ after.input)) = false ∨
            (e.cause = .unterminatedComment ∧ IsUnended (inner ++ (outer ++ after.input)))) ∧
          (∀ gap' rest, lexer.input = gap' ++ rest → IsGap rest gap' → EndsGap rest → gap' = gap) ∧
          text = read ++ gap ++ inner ++ outer ++ after.input ∧
          e.location = .behind (read ++ gap ++ inner)) ∧
    ((∀ token, .putBack token ∈ cs → token.LocatedIn text) →
      ∀ token after, lexer.next = (.ok token, after) → token.LocatedIn text) := by
  intro lexer
  obtain ⟨read, htext, hlocation⟩ : lexer.StandsIn text := (standsIn_ofChars text).calls cs
  cases hpending : lexer.pending with
  | some token =>
    have hput : .putBack token ∈ cs := by
      rcases pending_calls cs hpending with h | h
      · cases h
      · exact h
    have hnext : lexer.next = (.ok token, { lexer with pending := none }) := by
      rw [Lexer.next, hpending]
    refine ⟨⟨read, htext, hlocation, ?_⟩, fun hstands other after h => ?_⟩
    · rw [hnext]
      exact .inl ⟨rfl, hput⟩
    · rw [hnext] at h
      cases h
      exact hstands token hput
  | none =>
    have hnext := located_next hpending htext hlocation
    refine ⟨⟨read, htext, hlocation, ?_⟩, fun _ token after h => ?_⟩
    · split
      · next h =>
        rw [h] at hnext
        exact .inr ⟨rfl, hnext⟩
      · next h =>
        rw [h] at hnext
        exact hnext
    · rw [h] at hnext
      obtain ⟨gap, -, htext, hlocation⟩ := hnext
      exact ⟨read ++ gap, after.input, htext, hlocation⟩

/-- The digits of a number are missed behind its prefix, not at the comment before it. A comment that
does not end is refused at its opening. -/
example :
    (ofChars "/*c*/0x".toList).next.1 = .error ⟨.missingDigits, .behind "/*c*/0x".toList⟩ ∧
      (ofChars "/*c*/ /*0x".toList).next.1 =
        .error ⟨.unterminatedComment, .behind "/*c*/ ".toList⟩ := by
  decide +kernel

end Lexer

end StackCompiler
