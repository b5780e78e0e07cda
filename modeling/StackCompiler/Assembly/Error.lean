import StackCompiler.Text.Location

/-!
# Errors of code generation

A unit that was parsed from a text has the shape that code generation asks for. Units put together
by hand may not, and the output may run out of room.

* `EmitFault`: every cause for which code generation can fail.
* `EmitError`: a cause and, where it has one, its place.
-/

namespace StackCompiler

/-- Categories of errors of code generation. -/
inductive EmitErrorKind where
  | unhandledExpression
  | shapeViolation
  | danglingHandle
  | output
  deriving DecidableEq, Repr

namespace EmitErrorKind

/-- Is it a mistake of the compiler and not of its surroundings? -/
def isInternal : EmitErrorKind → Bool
  | .output => false
  | _ => true

/-- The category in words. -/
def text : EmitErrorKind → String
  | .unhandledExpression => "unhandled expression kind"
  | .shapeViolation => "AST shape violation"
  | .danglingHandle => "dangling AST handle"
  | .output => "output error"

end EmitErrorKind

/-- **Causes for which code generation fails.** -/
inductive EmitFault where
  /-- A token of this kind has no code. -/
  | noCode (kind : String)
  /-- A block where a scope belongs. -/
  | notScope (role found : String)
  /-- A memory region without a size. -/
  | noCapacity (name : String)
  /-- A call of something that is no name. -/
  | calleeNotName (found : String)
  /-- A call of something that is no function. -/
  | calleeNotFunction (name : String)
  /-- A branch joined to something that is no alternative. -/
  | notAlternative (found : String)
  /-- A literal without a value of its kind. -/
  | noValue (literal : String)
  /-- Blocks that lie inside themselves. -/
  | endless
  /-- A handle of a definition that does not resolve. -/
  | danglingDefinition (index : Nat)
  /-- A handle of a block that does not resolve. -/
  | danglingBlock (index : Nat)
  /-- The output does not take any more. -/
  | output (reason : String)
  deriving DecidableEq, Repr

namespace EmitFault

/-- The category of a cause. -/
def kind : EmitFault → EmitErrorKind
  | .noCode _ => .unhandledExpression
  | .danglingDefinition _ | .danglingBlock _ => .danglingHandle
  | .output _ => .output
  | _ => .shapeViolation

/-- **The wording of a cause.** -/
def message : EmitFault → String
  | .noCode kind => "no instruction sequence for '" ++ kind ++ "'"
  | .notScope role found => role ++ " is a " ++ found ++ " block, expected a scope"
  | .noCapacity name => "memory region '" ++ name ++ "' has a negative capacity"
  | .calleeNotName found => "call target is a " ++ found ++ " block, expected an identifier"
  | .calleeNotFunction name => "call target '" ++ name ++ "' is not a function"
  | .notAlternative found => "if is chained to a " ++ found ++ " block, expected else"
  | .noValue literal => "literal '" ++ literal ++ "' carries no matching value"
  | .endless => "blocks lie inside themselves"
  | .danglingDefinition index => "definition handle " ++ toString index ++ " does not resolve"
  | .danglingBlock index => "block handle " ++ toString index ++ " does not resolve"
  | .output reason => reason

end EmitFault

/-- **An error of code generation.** -/
structure EmitError where
  /-- What went wrong. -/
  cause : EmitFault
  /-- Where, if the error has a place. -/
  location : Option Location
  deriving DecidableEq, Repr

/-- The error as it is shown. -/
def EmitError.text (e : EmitError) : String :=
  let label := if e.cause.kind.isInternal then "internal compiler error: " else ""
  match e.location with
  | some l => l.text ++ ": " ++ label ++ e.cause.message
  | none => label ++ e.cause.message

end StackCompiler
