import StackCompiler.Text.Location
import StackCompiler.Text.Utf8
import StackCompiler.Token.Kind

/-!
# Tokens

* `TokenValue`: what a literal or an identifier carries.
* `Token`: a kind with its place in the text, its number in the sequence, its value and its text.
-/

namespace StackCompiler

/-- **The value a token carries.** -/
inductive TokenValue where
  /-- Brackets, keywords, operators and the end of input carry nothing. -/
  | none
  /-- The value of a signed literal or of a boolean constant. -/
  | int (value : Int)
  /-- The value of an unsigned literal. -/
  | uint (value : Nat)
  /-- The bit pattern of a floating point literal in the 64-bit format. -/
  | float (bits : UInt64)
  /-- The text of an identifier. -/
  | text (value : String)
  /-- The bytes a string literal denotes. -/
  | bytes (value : List UInt8)
  deriving DecidableEq, Repr, Inhabited

/-- **A token.** -/
structure Token where
  /-- What it is. -/
  kind : TokenKind
  /-- Where its first character stands. -/
  location : Location
  /-- How many tokens were read before it. -/
  index : Nat
  /-- What it carries. -/
  value : TokenValue
  /-- Its text as written. -/
  text : String
  deriving DecidableEq, Repr

namespace Token

/-- A token of a fixed word, with nothing but its spelling. -/
def ofKind (kind : TokenKind) (location : Location) : Token :=
  ⟨kind, location, 0, .none, kind.spelling?.getD ""⟩

/-- An identifier that stands in no text. -/
def synthetic (name : String) (location : Location) : Token :=
  ⟨.identifier, location, 0, .text name, name⟩

/-- The value of a signed literal. -/
def int? (token : Token) : Option Int :=
  match token.value with
  | .int value => some value
  | _ => none

/-- The value of an unsigned literal. -/
def uint? (token : Token) : Option Nat :=
  match token.value with
  | .uint value => some value
  | _ => none

/-- The bit pattern of a floating point literal. -/
def float? (token : Token) : Option UInt64 :=
  match token.value with
  | .float bits => some bits
  | _ => none

/-- The text of an identifier, or of a string literal whose bytes are UTF-8. -/
def text? (token : Token) : Option String :=
  match token.value with
  | .text value => some value
  | .bytes value => (Utf8.decode? value).map String.ofList
  | _ => none

/-- The bytes of a string literal. -/
def bytes? (token : Token) : Option (List UInt8) :=
  match token.value with
  | .bytes value => some value
  | _ => none

/-- The name that the token gives: its textual value or else its text. -/
def nameText (token : Token) : String := token.text?.getD token.text

/-- The token as it is quoted in messages. -/
def shown (token : Token) : String :=
  match token.kind with
  | .eof => "EOF"
  | .none => "<none>"
  | _ => token.text

end Token

end StackCompiler
