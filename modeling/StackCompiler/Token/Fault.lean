import StackCompiler.Text.Escape
import StackCompiler.Text.Location
import StackCompiler.Token.Vocabulary

/-!
# Lexical errors

* `LexFault`: every cause for which reading a token can fail, with what it names.
* `LexFault.kind`: the category of a cause.
* `LexFault.message`: its wording.
* `LexError`: a cause and its place in the text.
-/

namespace StackCompiler

/-- Categories of lexical errors. -/
inductive LexErrorKind where
  | invalidUtf8
  | invalidToken
  | numericOverflow
  | leadingZero
  | missingLiteralAfterSign
  | signedBasePrefix
  | invalidTrailingSymbol
  | invalidSuffix
  | unterminatedString
  | unterminatedComment
  | invalidEscape
  | lookaheadOverflow
  deriving DecidableEq, Repr

namespace LexErrorKind

/-- Is it the caller's mistake and not the text's? -/
def isInternal : LexErrorKind → Bool
  | .lookaheadOverflow => true
  | _ => false

/-- The category in words. -/
def text : LexErrorKind → String
  | .invalidUtf8 => "invalid utf-8"
  | .invalidToken => "invalid token"
  | .numericOverflow => "numeric overflow"
  | .leadingZero => "leading zero"
  | .missingLiteralAfterSign => "missing literal after sign"
  | .signedBasePrefix => "signed base prefix"
  | .invalidTrailingSymbol => "invalid trailing symbol"
  | .invalidSuffix => "invalid suffix"
  | .unterminatedString => "unterminated string"
  | .unterminatedComment => "unterminated comment"
  | .invalidEscape => "invalid escape"
  | .lookaheadOverflow => "lookahead overflow"

end LexErrorKind

/-- What a numeric literal was too large for. -/
inductive NumericTarget where
  /-- The type of the literal. -/
  | type (type : NumberType)
  /-- Any 64-bit integer. -/
  | anyInteger
  deriving DecidableEq, Repr

/-- The target in words. -/
def NumericTarget.text : NumericTarget → String
  | .type t => t.spelling
  | .anyInteger => "a 64-bit integer"

/-- **Causes for which reading a token fails.** -/
inductive LexFault where
  /-- The bytes are no UTF-8 from this offset on. -/
  | invalidUtf8 (offset : Nat)
  /-- A character that can neither start a token nor end a word. -/
  | invalidCharacter (found : Char)
  /-- A literal out of range. -/
  | numericOverflow (literal : String) (target : NumericTarget)
  /-- Decimal digits that begin with a zero they could leave out. -/
  | leadingZero (digits : String)
  /-- A sign with no digit after it. -/
  | missingLiteral (sign : Char)
  /-- A sign before a base. -/
  | signedBase
  /-- A character that cannot follow a literal. -/
  | trailingSymbol (found : Char)
  /-- The input ends after a base. -/
  | missingDigits
  /-- The input ends after the mark of an exponent. -/
  | missingExponent
  /-- A suffix that names no type. -/
  | unknownSuffix (suffix : String)
  /-- An integer suffix on a real number. -/
  | integerSuffix (suffix : String)
  /-- The input ends inside a string. -/
  | unterminatedString
  /-- The input ends after a backslash. -/
  | unterminatedEscape
  /-- The input ends inside a block comment. -/
  | unterminatedComment
  /-- An escape that denotes nothing. -/
  | invalidEscape (sequence : String)
  /-- A token is put back while another one waits. -/
  | lookaheadOverflow
  deriving DecidableEq, Repr

namespace LexFault

/-- The category of a cause. -/
def kind : LexFault → LexErrorKind
  | .invalidUtf8 _ => .invalidUtf8
  | .invalidCharacter _ => .invalidToken
  | .numericOverflow _ _ => .numericOverflow
  | .leadingZero _ => .leadingZero
  | .missingLiteral _ => .missingLiteralAfterSign
  | .signedBase => .signedBasePrefix
  | .trailingSymbol _ | .missingDigits | .missingExponent => .invalidTrailingSymbol
  | .unknownSuffix _ | .integerSuffix _ => .invalidSuffix
  | .unterminatedString | .unterminatedEscape => .unterminatedString
  | .unterminatedComment => .unterminatedComment
  | .invalidEscape _ => .invalidEscape
  | .lookaheadOverflow => .lookaheadOverflow

/-- **The wording of a cause.** -/
def message : LexFault → String
  | .invalidUtf8 offset => "invalid utf-8 sequence at byte offset " ++ toString offset
  | .invalidCharacter found => "invalid character '" ++ escapeChar found ++ "' encountered"
  | .numericOverflow literal target =>
    "literal '" ++ literal ++ "' does not fit into " ++ target.text
  | .leadingZero digits => "decimal literal '" ++ digits ++ "' has a leading zero"
  | .missingLiteral sign => "missing literal after sign '" ++ sign.toString ++ "'"
  | .signedBase => "base-prefixed literals cannot carry a sign"
  | .trailingSymbol found => "invalid symbol '" ++ escapeChar found ++ "' directly after literal"
  | .missingDigits => "missing digits after base prefix"
  | .missingExponent => "missing digits after exponent marker"
  | .unknownSuffix suffix => "invalid literal suffix '" ++ suffix ++ "'"
  | .integerSuffix suffix => "integer suffix '" ++ suffix ++ "' on a floating point literal"
  | .unterminatedString => "unterminated string literal"
  | .unterminatedEscape => "unterminated escape sequence"
  | .unterminatedComment => "unterminated block comment"
  | .invalidEscape sequence => "invalid escape sequence '\\" ++ sequence ++ "'"
  | .lookaheadOverflow => "a token is already pending; only one token can be pushed back"

end LexFault

/-- **A lexical error**: a cause and its place in the text. -/
structure LexError where
  /-- What went wrong. -/
  cause : LexFault
  /-- Where. -/
  location : Location
  deriving DecidableEq, Repr

/-- The error as it is shown: its place, then the wording of its cause. -/
def LexError.text (e : LexError) : String := e.location.text ++ ": " ++ e.cause.message

end StackCompiler
