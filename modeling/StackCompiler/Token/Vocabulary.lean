/-!
# Words of the language

The fixed words of the language by family: brackets, number types, operators and structure
keywords.

* `Bracket`: the three bracket pairs.
* `NumberType`: the types a numeric literal can have.
* `TypeName`: the types a cast or signature can name.
* `Operator`: words that act on the data stack on their own.
* `Keyword`: words that open or join larger constructs.
-/

namespace StackCompiler

/-- The three bracket pairs. -/
inductive Bracket where
  | paren
  | square
  | brace
  deriving DecidableEq, Repr

/-- The pair as it is written. -/
def Bracket.delimiters : Bracket → String
  | .paren => "()"
  | .square => "[]"
  | .brace => "\x7b\x7d"

/-- The bracket pair that a character opens. -/
def Bracket.ofOpening? : Char → Option Bracket
  | '(' => some .paren
  | '[' => some .square
  | '{' => some .brace
  | _ => none

/-- The bracket pair that a character closes. -/
def Bracket.ofClosing? : Char → Option Bracket
  | ')' => some .paren
  | ']' => some .square
  | '}' => some .brace
  | _ => none

/-- Sizes of integers and of memory accesses. -/
inductive Width where
  | w8
  | w16
  | w32
  | w64
  deriving DecidableEq, Repr

/-- The size in bits. -/
def Width.bits : Width → Nat
  | .w8 => 8
  | .w16 => 16
  | .w32 => 32
  | .w64 => 64

/-- The types of numeric literals. -/
inductive NumberType where
  | signed (width : Width)
  | unsigned (width : Width)
  | float32
  | float64
  deriving DecidableEq, Repr

namespace NumberType

/-- The spelling of the type, also as a literal's suffix. -/
def spelling : NumberType → String
  | .signed width => "i" ++ toString width.bits
  | .unsigned width => "u" ++ toString width.bits
  | .float32 => "f32"
  | .float64 => "f64"

/-- Is this a floating point type? -/
def isFloat : NumberType → Bool
  | .float32 | .float64 => true
  | _ => false

/-- Every number type. -/
def all : List NumberType :=
  [.signed .w8, .signed .w16, .signed .w32, .signed .w64,
   .unsigned .w8, .unsigned .w16, .unsigned .w32, .unsigned .w64, .float32, .float64]

/-- The type with a given spelling. -/
def ofSpelling? (spelled : String) : Option NumberType :=
  all.find? fun t => t.spelling == spelled

/-- **Does an integer lie in the range of the type?** No integer lies in a floating point type. -/
def holds : NumberType → Int → Bool
  | .signed width, n => -(Int.pow 2 (width.bits - 1)) ≤ n && n < Int.pow 2 (width.bits - 1)
  | .unsigned width, n => 0 ≤ n && n < Int.pow 2 width.bits
  | _, _ => false

end NumberType

/-- The types that casts and signatures name. -/
inductive TypeName where
  | number (type : NumberType)
  | pointer
  deriving DecidableEq, Repr

/-- **Words that act on the data stack on their own.** -/
inductive Operator where
  | add | sub | mul | div | mod | divMod | inc | dec
  | logicalNot | logicalAnd | logicalOr | logicalXor
  | bitNot | bitAnd | bitOr | bitXor | shiftLeft | shiftRight
  | equal | notEqual | greater | greaterEqual | less | lessEqual
  | drop | dup | over | rot | swap
  | load (width : Width)
  | store (width : Width)
  | syscall (arguments : Fin 6)
  | constant (value : Bool)
  deriving DecidableEq, Repr

/-- How many arguments a system call takes beside its number: one to six. -/
def syscallArity (arguments : Fin 6) : Nat := arguments.val + 1

/-- **Words that open or join larger constructs.** -/
inductive Keyword where
  | asType
  | assembly
  | call
  | elseIf
  | otherwise
  | function
  | condition
  | inline
  | loop
  | memory
  | requires
  | returns
  | inSection
  | string
  deriving DecidableEq, Repr

end StackCompiler
