import StackCompiler.Token.Basic

/-!
# Nodes of the syntax tree

A unit is a sequence of definitions. The body of a function is a tree of blocks. Nodes refer to each
other by handles, which a store turns into nodes.

* `BlockId`, `DefId`: handles.
* `Block`: one construct of a function's body.
* `Definition`: a function, a memory region or a string constant.
-/

namespace StackCompiler

/-- **A handle to a block**: its number in a store, and the generation of that store. -/
structure BlockId where
  /-- The number of the block in its store. -/
  index : Nat
  /-- The generation of the store in which the handle was given out. -/
  generation : UInt32
  deriving DecidableEq, Repr

/-- **A handle to a definition.** -/
structure DefId where
  /-- The number of the definition in its store. -/
  index : Nat
  /-- The generation of the store in which the handle was given out. -/
  generation : UInt32
  deriving DecidableEq, Repr

/-- **One construct of a function's body.** The numbers of branches and loops name their labels. -/
inductive Block where
  /-- An operator or a literal. -/
  | expression (token : Token)
  /-- A name, and the definition it stands for. -/
  | reference (token : Token) (target : DefId)
  /-- A call of the function that a reference names. -/
  | call (location : Location) (callee : BlockId)
  /-- A cast, which makes no code. -/
  | cast (location : Location) (types : List Token)
  /-- Blocks between brackets. -/
  | scope (bracket : Bracket) (location : Location) (children : List BlockId)
  /-- A condition and the body it guards. `next` is the alternative that follows. -/
  | branch (location : Location) (condition body : BlockId) (next : Option BlockId) (index : Nat)
  /-- The alternative of the branch before it. -/
  | alternative (location : Location) (body : BlockId) (index : Nat)
  /-- A loop that tests its condition before every round. -/
  | loop (location : Location) (condition body : BlockId) (index : Nat)
  /-- A line of assembly, given by a string literal. -/
  | assembly (token : Token)
  deriving DecidableEq, Repr

namespace Block

/-- Where the block stands. -/
def location : Block → Location
  | .expression token | .reference token _ | .assembly token => token.location
  | .call l _ | .cast l _ | .scope _ l _ | .branch l .. | .alternative l _ _ | .loop l .. => l

/-- The name of the construct in outlines and messages. -/
def name : Block → String
  | .expression _ => "expr"
  | .reference .. => "ident"
  | .call .. => "call"
  | .cast .. => "as"
  | .scope .. => "scope"
  | .branch .. => "if"
  | .alternative .. => "else"
  | .loop .. => "loop"
  | .assembly _ => "asm"

/-- **The blocks directly below a block.** The alternative of a branch stands beside it. -/
def children : Block → List BlockId
  | .call _ callee => [callee]
  | .scope _ _ children => children
  | .branch _ condition body _ _ => [condition, body]
  | .alternative _ body _ => [body]
  | .loop _ condition body _ => [condition, body]
  | .expression _ | .reference .. | .cast .. | .assembly _ => []

end Block

/-- What a function adds to a definition. -/
structure Function where
  /-- The types it takes. -/
  requires : List Token
  /-- The types it leaves. -/
  returns : List Token
  /-- The scope of its body. -/
  body : BlockId
  /-- Does the program start here? -/
  isEntry : Bool
  deriving DecidableEq, Repr

/-- **What a definition defines.** -/
inductive DefinitionBody where
  /-- A function. -/
  | function (function : Function)
  /-- A memory region of as many bytes as the literal says. -/
  | memory (capacity : Token)
  /-- The bytes of a string literal. -/
  | string (literal : Token)
  deriving DecidableEq, Repr

/-- **A definition.** -/
structure Definition where
  /-- Where its keyword stands. -/
  location : Location
  /-- The token of its name. -/
  ident : Token
  /-- The token that names the section it goes into. -/
  place : Token
  /-- Does some reference stand for it, or does the program start here? -/
  used : Bool
  /-- Its number in the unit. -/
  index : Nat
  /-- What it defines. -/
  body : DefinitionBody
  deriving DecidableEq, Repr

namespace Definition

/-- The name. -/
def name (d : Definition) : String := d.ident.nameText

/-- The name of the section. -/
def sectionName (d : Definition) : String := d.place.nameText

/-- The keyword of the definition. -/
def keyword (d : Definition) : String :=
  match d.body with
  | .function _ => "func"
  | .memory _ => "mem"
  | .string _ => "str"

/-- Does the program start here? -/
def isEntry (d : Definition) : Bool :=
  match d.body with
  | .function f => f.isEntry
  | _ => false

/-- Does it define a function? -/
def isFunction (d : Definition) : Bool :=
  match d.body with
  | .function _ => true
  | _ => false

end Definition

/-- The number of bytes that a literal asks for, unless it is negative or no integer. -/
def capacityBytes? (capacity : Token) : Option Nat :=
  match capacity.uint? with
  | some n => some n
  | none =>
    match capacity.int? with
    | some n => if 0 ≤ n then some n.toNat else none
    | none => none

/-- The bytes of a string constant, without a closing zero. -/
def literalBytes (literal : Token) : List UInt8 := literal.bytes?.getD []

/-- Does a string constant end with a zero byte? -/
def isTerminated (literal : Token) : Bool := literal.kind == .string true

end StackCompiler
