import StackCompiler.Token.Fault

/-!
# Scanners

A scanner reads from the front of a list of characters. Whether it succeeds or fails, it leaves a
cursor: the characters not read yet, and how many have been read. So reading can go on after an
error. A fault points at a place of the input by the number of characters before it.

* `Cursor`: a place in an input.
* `Cursor.Reaches`: one place follows another.
* `Scanner.takeWhile`: the longest run of characters of a class.
* `Scanner.failAt`: failure at an earlier place.
* `Scanner.expectEnd`: a literal or word ends at a blank, a bracket or the end of input.
-/

namespace StackCompiler

/-- Blanks between tokens. -/
def isBlank (c : Char) : Bool := c == ' ' || c == '\t' || c == '\n' || c == '\r'

/-- Brackets are tokens of one character. -/
def isBracket (c : Char) : Bool :=
  (Bracket.ofOpening? c).isSome || (Bracket.ofClosing? c).isSome

/-- Characters at which a literal or a word may end. -/
def isTerminator (c : Char) : Bool := isBlank c || isBracket c

/-! ## Places in an input -/

/-- **A place in an input.** -/
structure Cursor where
  /-- How many characters have been read. -/
  read : Nat
  /-- The characters not read yet. -/
  rest : List Char
  deriving DecidableEq, Repr

namespace Cursor

/-- The beginning of an input. -/
def start (input : List Char) : Cursor := ⟨0, input⟩

/-- The place after a number of characters, or the end if there are not so many. -/
def skip (c : Cursor) (n : Nat) : Cursor := ⟨c.read + (c.rest.take n).length, c.rest.drop n⟩

/-- The place after the longest run of characters of a class. -/
def skipWhile (c : Cursor) (p : Char → Bool) : Cursor :=
  ⟨c.read + (c.rest.takeWhile p).length, c.rest.dropWhile p⟩

/-- The characters from one place to a later one. -/
def textTo (c d : Cursor) : List Char := c.rest.take (d.read - c.read)

/-- **One place follows another**: reading some characters leads from the first to the second. -/
def Reaches (c d : Cursor) : Prop := ∃ run, c.rest = run ++ d.rest ∧ d.read = c.read + run.length

theorem Reaches.refl (c : Cursor) : c.Reaches c := ⟨[], rfl, rfl⟩

theorem Reaches.trans {a b c : Cursor} (hab : a.Reaches b) (hbc : b.Reaches c) : a.Reaches c := by
  obtain ⟨r, hr, hrn⟩ := hab
  obtain ⟨s, hs, hsn⟩ := hbc
  refine ⟨r ++ s, ?_, ?_⟩
  · rw [hr, hs, List.append_assoc]
  · rw [hsn, hrn, List.length_append, Nat.add_assoc]

theorem Reaches.length_le {c d : Cursor} (h : c.Reaches d) : d.rest.length ≤ c.rest.length := by
  obtain ⟨run, hrun, -⟩ := h
  rw [hrun, List.length_append]
  exact Nat.le_add_left _ _

theorem reaches_cons (read : Nat) (c : Char) (rest : List Char) :
    Reaches ⟨read, c :: rest⟩ ⟨read + 1, rest⟩ := ⟨[c], rfl, rfl⟩

theorem reaches_skip (c : Cursor) (n : Nat) : c.Reaches (c.skip n) :=
  ⟨c.rest.take n, (List.take_append_drop n c.rest).symm, rfl⟩

theorem reaches_skipWhile (c : Cursor) (p : Char → Bool) : c.Reaches (c.skipWhile p) :=
  ⟨c.rest.takeWhile p, List.takeWhile_append_dropWhile.symm, rfl⟩

end Cursor

/-! ## Scanners -/

/-- A cause, and how many characters stand before its place. -/
structure ScanFault where
  /-- The place of the fault. -/
  place : Nat
  /-- What went wrong. -/
  cause : LexFault
  deriving DecidableEq, Repr

/-- **A reader of characters.** The state is the place where it stands. -/
abbrev Scanner (α : Type) := EStateM ScanFault Cursor α

namespace Scanner

/-- The next character. -/
def peek : Scanner (Option Char) := fun c => .ok c.rest.head? c

/-- Reads a number of characters. -/
def skip (n : Nat) : Scanner Unit := fun c => .ok () (c.skip n)

/-- Reads a character if it is the expected one. -/
def accept (expected : Char) : Scanner Bool := do
  if (← peek) = some expected then
    skip 1
    return true
  else return false

/-- Fails at a place. -/
def failAt (place : Nat) (cause : LexFault) : Scanner α := throw ⟨place, cause⟩

/-- Fails at the next character. -/
def failHere (cause : LexFault) : Scanner α := fun c => .error ⟨c.read, cause⟩ c

/-- **The longest run of characters of a class.** -/
def takeWhile (p : Char → Bool) : Scanner (List Char) :=
  fun c => .ok (c.rest.takeWhile p) (c.skipWhile p)

/-- Succeeds at a terminator or at the end of input, and reads nothing. -/
def expectEnd (cause : Char → LexFault) : Scanner Unit := do
  match ← peek with
  | none => return
  | some c => if isTerminator c then return else failHere (cause c)

end Scanner

/-- **The place where a scanner stops, successful or not.** -/
def cursorAfter : EStateM.Result ε Cursor α → Cursor
  | .ok _ c => c
  | .error _ c => c

/-! ## Progress -/

namespace Scanner

/-- The scanner never goes back. -/
def MovesOn (m : Scanner α) : Prop := ∀ c : Cursor, c.Reaches (cursorAfter (m c))

/-- Where the scanner succeeds it has read at least one character. -/
def Advances (m : Scanner α) : Prop :=
  ∀ c a d, m c = .ok a d → d.rest.length < c.rest.length

section Laws

variable {α β : Type}

theorem bind_apply (m : Scanner α) (f : α → Scanner β) (c : Cursor) :
    (m >>= f) c = match m c with
      | .ok a d => f a d
      | .error e d => .error e d := by
  simp only [bind, EStateM.bind]
  cases m c <;> rfl

theorem MovesOn.bind {m : Scanner α} {f : α → Scanner β} (hm : m.MovesOn)
    (hf : ∀ a, (f a).MovesOn) : (m >>= f).MovesOn := by
  intro c
  have h := hm c
  rw [bind_apply]
  cases hr : m c with
  | ok a d =>
    rw [hr] at h
    exact h.trans (hf a d)
  | error e d =>
    rw [hr] at h
    exact h

theorem MovesOn.pure (a : α) : MovesOn (Pure.pure a : Scanner α) := Cursor.Reaches.refl

theorem MovesOn.get : MovesOn (MonadState.get : Scanner Cursor) := Cursor.Reaches.refl

theorem MovesOn.peek : peek.MovesOn := Cursor.Reaches.refl

theorem MovesOn.skip (n : Nat) : (skip n).MovesOn := fun c => c.reaches_skip n

theorem accept_cons (expected : Char) (read : Nat) (c : Char) (rest : List Char) :
    accept expected ⟨read, c :: rest⟩ =
      if c = expected then .ok true ⟨read + 1, rest⟩ else .ok false ⟨read, c :: rest⟩ := by
  change (if some c = some expected then skip 1 >>= fun _ => Pure.pure true else Pure.pure false :
    Scanner Bool) _ = _
  by_cases hc : c = expected
  · rw [if_pos (congrArg some hc), if_pos hc]
    rfl
  · rw [if_neg fun h => hc (Option.some.inj h), if_neg hc]
    rfl

theorem MovesOn.failAt (place : Nat) (cause : LexFault) :
    MovesOn (Scanner.failAt place cause : Scanner α) := Cursor.Reaches.refl

theorem MovesOn.failHere (cause : LexFault) :
    MovesOn (Scanner.failHere cause : Scanner α) := Cursor.Reaches.refl

theorem MovesOn.takeWhile (p : Char → Bool) : (Scanner.takeWhile p).MovesOn :=
  fun c => c.reaches_skipWhile p

theorem MovesOn.expectEnd (cause : Char → LexFault) : (Scanner.expectEnd cause).MovesOn := by
  refine MovesOn.peek.bind fun next => ?_
  split
  · exact MovesOn.pure _
  · split
    · exact MovesOn.pure _
    · exact MovesOn.failHere _

theorem Advances.bind {m : Scanner α} {f : α → Scanner β} (hm : m.Advances)
    (hf : ∀ a, (f a).MovesOn) : (m >>= f).Advances := by
  intro c b e h
  rw [bind_apply] at h
  cases hr : m c with
  | ok a d =>
    rw [hr] at h
    have := (hf a d).length_le
    dsimp only at h
    rw [h] at this
    exact Nat.lt_of_le_of_lt this (hm c a d hr)
  | error fault d =>
    rw [hr] at h
    cases h

theorem MovesOn.bind_advances {m : Scanner α} {f : α → Scanner β} (hm : m.MovesOn)
    (hf : ∀ a, (f a).Advances) : (m >>= f).Advances := by
  intro c b e h
  rw [bind_apply] at h
  have hs := (hm c).length_le
  cases hr : m c with
  | ok a d =>
    rw [hr] at h hs
    exact Nat.lt_of_lt_of_le (hf a d b e h) hs
  | error fault d =>
    rw [hr] at h
    cases h

end Laws

end Scanner

end StackCompiler
