import StackCompiler.Syntax.Error

/-!
# Constructs that are still open

While a body is being parsed, the scopes around the current place are open, the innermost first and
the function's own last. Inside a scope, every `elif` opens a chain: the rest of the branch goes into
a scope of its own, which becomes the alternative of the branch before.

* `Purpose`: what a nested scope is for.
* `Chain`: an alternative opened by `elif`.
* `OpenScope`: a scope with everything around it.
* `OpenScope.push`: a finished block goes into the innermost chain or scope.
-/

namespace StackCompiler

/-- The part of a branch or loop that a scope is. -/
inductive Part where
  | condition
  | body
  deriving DecidableEq, Repr

/-- The part in words. -/
def Part.text : Part → String
  | .condition => "condition"
  | .body => "body"

/-- **What a nested scope is for.** Branches and loops carry their keyword and number. -/
inductive Purpose where
  /-- A block by itself. -/
  | plain
  /-- The condition of a branch. -/
  | branchCondition (keyword : Token) (index : Nat)
  /-- The body of a branch whose condition is known. -/
  | branchBody (keyword : Token) (index : Nat) (condition : BlockId)
  /-- The alternative of a branch. -/
  | alternative (keyword : Token) (index : Nat) (branch : BlockId)
  /-- The condition of a loop. -/
  | loopCondition (keyword : Token) (index : Nat)
  /-- The body of a loop whose condition is known. -/
  | loopBody (keyword : Token) (index : Nat) (condition : BlockId)
  deriving DecidableEq, Repr

/-- The fault of finding something else where a scope has to open. -/
def Purpose.missing (purpose : Purpose) (found : String) : ParseFault :=
  match purpose with
  | .plain => .unexpected .block found
  | .branchCondition keyword _ => .branchPart Part.condition.text keyword.text found
  | .branchBody keyword _ _ => .branchPart Part.body.text keyword.text found
  | .alternative keyword _ _ => .branchPart Part.body.text keyword.text found
  | .loopCondition keyword _ => .loopPart Part.condition.text keyword.text found
  | .loopBody keyword _ _ => .loopPart Part.body.text keyword.text found

/-- **An alternative opened by `elif`.** -/
structure Chain where
  /-- Where the `elif` stands. -/
  location : Location
  /-- The number of the alternative. -/
  index : Nat
  /-- The branch before it. -/
  branch : BlockId
  /-- The blocks of its scope so far, the newest first. -/
  blocks : List BlockId
  deriving DecidableEq, Repr

/-- The inside of an open scope. -/
structure Interior where
  /-- Its brackets. -/
  bracket : Bracket
  /-- The token that opened it. -/
  opener : Token
  /-- How many scopes are open, this one included. -/
  depth : Nat
  /-- Its blocks so far, the newest first. -/
  blocks : List BlockId
  /-- The chains open inside it, the innermost first. -/
  chains : List Chain
  deriving DecidableEq, Repr

/-- **A scope with everything around it.** -/
inductive OpenScope where
  /-- The body of a function. -/
  | function (interior : Interior) (block : BlockId)
  /-- A scope inside another one. -/
  | nested (interior : Interior) (purpose : Purpose) (outer : OpenScope)
  deriving DecidableEq, Repr

namespace OpenScope

/-- The inside of the innermost scope. -/
def interior : OpenScope → Interior
  | .function interior _ => interior
  | .nested interior _ _ => interior

/-- Changes the inside of the innermost scope. -/
def modify (f : Interior → Interior) : OpenScope → OpenScope
  | .function interior block => .function (f interior) block
  | .nested interior purpose outer => .nested (f interior) purpose outer

/-- **Adds a finished block** to the innermost chain, or to the scope if no chain is open. -/
def push (scope : OpenScope) (id : BlockId) : OpenScope :=
  scope.modify fun interior =>
    match interior.chains with
    | [] => { interior with blocks := id :: interior.blocks }
    | chain :: outer =>
      { interior with chains := { chain with blocks := id :: chain.blocks } :: outer }

/-- Opens a chain inside the innermost scope. -/
def openChain (scope : OpenScope) (chain : Chain) : OpenScope :=
  scope.modify fun interior => { interior with chains := chain :: interior.chains }

/-- The depth of a scope opened here. Every open chain counts as a scope. -/
def innerDepth (scope : OpenScope) : Nat :=
  scope.interior.depth + scope.interior.chains.length + 1

end OpenScope

end StackCompiler
