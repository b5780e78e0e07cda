import StackCompiler.Syntax.Store
import StackCompiler.Token.Fault

/-!
# Syntax errors

* `Expectation`: what the grammar asks for at a place.
* `ParseFault`: every cause for which parsing can fail.
* `ParseFault.kind`, `ParseFault.message`: its category and its wording.
* `ParseError`: a cause and, where it has one, its place.
-/

namespace StackCompiler

/-- Categories of syntax errors. -/
inductive ParseErrorKind where
  | lexical (kind : LexErrorKind)
  | invalidGlobalBlock
  | invalidLocalBlock
  | undefinedIdentifier
  | redefinedIdentifier
  | unexpectedToken
  | unexpectedEndOfInput
  | unclosedScope
  | mismatchedScopeClose
  | invalidCallTarget
  | malformedCast
  | malformedDefinition
  | malformedIf
  | malformedLoop
  | danglingElse
  | nestingLimitExceeded
  | nodeLimitExceeded
  deriving DecidableEq, Repr

/-- The category in words. -/
def ParseErrorKind.text : ParseErrorKind → String
  | .lexical kind => kind.text
  | .invalidGlobalBlock => "invalid global block"
  | .invalidLocalBlock => "invalid local block"
  | .undefinedIdentifier => "undefined identifier"
  | .redefinedIdentifier => "redefined identifier"
  | .unexpectedToken => "unexpected token"
  | .unexpectedEndOfInput => "unexpected end of input"
  | .unclosedScope => "unclosed scope"
  | .mismatchedScopeClose => "mismatched scope close"
  | .invalidCallTarget => "invalid call target"
  | .malformedCast => "malformed cast"
  | .malformedDefinition => "malformed definition"
  | .malformedIf => "malformed if"
  | .malformedLoop => "malformed loop"
  | .danglingElse => "dangling else"
  | .nestingLimitExceeded => "nesting limit exceeded"
  | .nodeLimitExceeded => "node limit exceeded"

/-- **What the grammar asks for at a place.** -/
inductive Expectation where
  /-- The name of a section. -/
  | sectionName
  /-- The keyword of a definition. -/
  | definitionKeyword
  /-- A name after the keyword of a definition. -/
  | definitionName (keyword : String)
  /-- The bracket that closes the signature of a function. -/
  | signatureEnd (function : String)
  /-- The bracket that opens the body of a function. -/
  | functionBody (function : String)
  /-- A type after a keyword of a signature. -/
  | signatureType (keyword : String)
  /-- The size of a memory region. -/
  | capacity (memory : String)
  /-- The literal of a string constant. -/
  | literal (constant : String)
  /-- A type after the keyword of a cast. -/
  | castType (keyword : String)
  /-- The literal of a line of assembly. -/
  | assemblyLine (keyword : String)
  /-- A block. -/
  | block
  deriving DecidableEq, Repr

/-- The expectation in words. -/
def Expectation.text : Expectation → String
  | .sectionName => "a section name after 'sec'"
  | .definitionKeyword => "'func', 'mem', or 'str'"
  | .definitionName keyword => "an identifier after '" ++ keyword ++ "'"
  | .signatureEnd function => "')' to close the signature of '" ++ function ++ "'"
  | .functionBody function => "'\x7b' to open the body of '" ++ function ++ "'"
  | .signatureType keyword | .castType keyword => "at least one type after '" ++ keyword ++ "'"
  | .capacity memory => "a non-negative integer capacity for '" ++ memory ++ "'"
  | .literal constant => "a string literal for '" ++ constant ++ "'"
  | .assemblyLine keyword => "a string literal after '" ++ keyword ++ "'"
  | .block => "a block"

/-- The category of a disappointed expectation. -/
def Expectation.kind : Expectation → ParseErrorKind
  | .castType _ => .malformedCast
  | .assemblyLine _ | .block => .unexpectedToken
  | _ => .malformedDefinition

/-- **Causes for which parsing fails.** Words of the source stand in them as they are shown. -/
inductive ParseFault where
  /-- Reading a token failed. -/
  | lexical (cause : LexFault)
  /-- Something outside of any definition. -/
  | outsideDefinition (found : String)
  /-- A definition inside a body. -/
  | insideScope (found : String)
  /-- A name that stands for nothing. -/
  | undefinedName (name : String)
  /-- A name that is taken. -/
  | redefinedName (name : String)
  /-- Something else than expected. -/
  | unexpected (expected : Expectation) (found : String)
  /-- The end of input where something was expected. -/
  | endOfInput (expected : Expectation)
  /-- A scope open at the end of input. -/
  | unclosedScope (opener : String)
  /-- A bracket that closes another kind of scope. -/
  | mismatchedClose (found opener : String) (opened : Location)
  /-- A call of something else than a function. -/
  | invalidCall
  /-- A branch without its condition or body. -/
  | branchPart (part keyword found : String)
  /-- A loop without its condition or body. -/
  | loopPart (part keyword found : String)
  /-- An alternative without a branch. -/
  | danglingAlternative (keyword : String)
  /-- Scopes nested too deep. -/
  | nestingLimit (limit : Nat)
  /-- No room for a node. -/
  | nodeLimit (refusal : NodeLimit)
  deriving DecidableEq, Repr

namespace ParseFault

/-- The category of a cause. -/
def kind : ParseFault → ParseErrorKind
  | .lexical cause => .lexical cause.kind
  | .outsideDefinition _ => .invalidGlobalBlock
  | .insideScope _ => .invalidLocalBlock
  | .undefinedName _ => .undefinedIdentifier
  | .redefinedName _ => .redefinedIdentifier
  | .unexpected expected _ => expected.kind
  | .endOfInput _ => .unexpectedEndOfInput
  | .unclosedScope _ => .unclosedScope
  | .mismatchedClose .. => .mismatchedScopeClose
  | .invalidCall => .invalidCallTarget
  | .branchPart .. => .malformedIf
  | .loopPart .. => .malformedLoop
  | .danglingAlternative _ => .danglingElse
  | .nestingLimit _ => .nestingLimitExceeded
  | .nodeLimit _ => .nodeLimitExceeded

/-- **The wording of a cause.** -/
def message : ParseFault → String
  | .lexical cause => cause.message
  | .outsideDefinition found => "'" ++ found ++ "' cannot appear outside a definition"
  | .insideScope found => "definition '" ++ found ++ "' cannot appear inside a scope"
  | .undefinedName name => "undefined identifier '" ++ name ++ "'"
  | .redefinedName name => "'" ++ name ++ "' is already defined"
  | .unexpected expected found => "expected " ++ expected.text ++ ", found '" ++ found ++ "'"
  | .endOfInput expected => "expected " ++ expected.text ++ ", found end of input"
  | .unclosedScope opener => "scope '" ++ opener ++ "' is never closed"
  | .mismatchedClose found opener opened =>
    "'" ++ found ++ "' does not close scope '" ++ opener ++ "' opened at " ++ opened.text
  | .invalidCall => "'call' must directly follow the name of a function"
  | .branchPart part keyword found | .loopPart part keyword found =>
    "expected " ++ part ++ " scope after '" ++ keyword ++ "', found '" ++ found ++ "'"
  | .danglingAlternative keyword => "'" ++ keyword ++ "' without a preceding 'if'"
  | .nestingLimit limit => "scopes nested deeper than " ++ toString limit
  | .nodeLimit refusal => refusal.message

end ParseFault

/-- **A syntax error**: a cause and its place. A full store has no place. -/
structure ParseError where
  /-- What went wrong. -/
  cause : ParseFault
  /-- Where. -/
  location : Option Location
  deriving DecidableEq, Repr

namespace ParseError

/-- Did reading a token fail? -/
def isLexical (e : ParseError) : Bool :=
  match e.cause with
  | .lexical _ => true
  | _ => false

/-- The error as it is shown: its place, if it has one, then the wording of its cause. -/
def text (e : ParseError) : String :=
  match e.location with
  | some l => l.text ++ ": " ++ e.cause.message
  | none => e.cause.message

end ParseError

end StackCompiler
