/-!
# Positions in a source text

A position is a line and a column, both counted from `1`. Columns count characters, not bytes.
Both counters stop at the largest 32-bit number instead of growing past it.

* `Location.advance`: the position after one character.
* `Location.advanceBy`: the position after a run of characters.
* `Location.text`: the form `line:column` used in every message.
-/

namespace StackCompiler

/-- A line and a column, both counted from `1`. -/
structure Location where
  /-- One more than the number of newlines before the position. -/
  line : Nat
  /-- One more than the number of characters since the last newline. -/
  column : Nat
  deriving DecidableEq, Repr, Inhabited

namespace Location

/-- **The largest line or column that is ever counted.** -/
def limit : Nat := 4294967295

/-- The position of the first character of a text. -/
def start : Location := ⟨1, 1⟩

/-- One step of a counter that stops at `limit`. -/
def bump (n : Nat) : Nat := min (n + 1) limit

/-- **The position after one character.** A newline opens the next line. -/
def advance (l : Location) (c : Char) : Location :=
  if c = '\n' then ⟨bump l.line, 1⟩ else ⟨l.line, bump l.column⟩

/-- The position after a run of characters. -/
def advanceBy (l : Location) (cs : List Char) : Location := cs.foldl advance l

/-- The position as it stands in messages: `line:column`. -/
def text (l : Location) : String := toString l.line ++ ":" ++ toString l.column

@[simp] theorem advanceBy_nil (l : Location) : l.advanceBy [] = l := rfl

@[simp] theorem advanceBy_cons (l : Location) (c : Char) (cs : List Char) :
    l.advanceBy (c :: cs) = (l.advance c).advanceBy cs := rfl

@[simp] theorem advanceBy_append (l : Location) (cs ds : List Char) :
    l.advanceBy (cs ++ ds) = (l.advanceBy cs).advanceBy ds := List.foldl_append

end Location

end StackCompiler
