import StackCompiler.Token.Vocabulary

/-!
# Kinds of tokens

* `TokenKind`: what a token is.
* `TokenKind.reserved`: the fixed words with their kinds, in ascending order.
* `TokenKind.ofSpelling?`: the kind of a fixed word, found by halving that table.
* `TokenKind.spelling?` and `TokenKind.name`: a kind as text.
-/

namespace StackCompiler

/-- **What a token is.** -/
inductive TokenKind where
  /-- An opening bracket. -/
  | opening (bracket : Bracket)
  /-- A closing bracket. -/
  | closing (bracket : Bracket)
  /-- An operator or a boolean constant. -/
  | operator (operator : Operator)
  /-- The name of a type. -/
  | typeName (type : TypeName)
  /-- A structure keyword. -/
  | keyword (keyword : Keyword)
  /-- A numeric literal. -/
  | number (type : NumberType)
  /-- A string literal, closed by a zero byte or not. -/
  | string (terminated : Bool)
  /-- Any other word. -/
  | identifier
  /-- The end of the input. -/
  | eof
  /-- No token at all. -/
  | none
  deriving DecidableEq, Repr

/-- **Look-up in a table sorted by key**, between two positions, by halving the distance. -/
def searchSorted (table : Array (String × α)) (key : String) (low high : Nat) : Option α :=
  if low < high then
    let middle := (low + high) / 2
    match table[middle]? with
    | none => none
    | some (entry, value) =>
      if entry = key then some value
      else if entry < key then searchSorted table key (middle + 1) high
      else searchSorted table key low middle
  else none
termination_by high - low

namespace TokenKind

/-- **The fixed words of the language**, in ascending order of spelling. -/
def reserved : Array (String × TokenKind) := #[
  ("(", .opening .paren),
  (")", .closing .paren),
  ("[", .opening .square),
  ("]", .closing .square),
  ("add", .operator .add),
  ("as", .keyword .asType),
  ("asm", .keyword .assembly),
  ("band", .operator .bitAnd),
  ("bnot", .operator .bitNot),
  ("bor", .operator .bitOr),
  ("bxor", .operator .bitXor),
  ("call", .keyword .call),
  ("dec", .operator .dec),
  ("div", .operator .div),
  ("divmod", .operator .divMod),
  ("drop", .operator .drop),
  ("dup", .operator .dup),
  ("elif", .keyword .elseIf),
  ("else", .keyword .otherwise),
  ("eq", .operator .equal),
  ("f32", .typeName (.number .float32)),
  ("f64", .typeName (.number .float64)),
  ("false", .operator (.constant false)),
  ("func", .keyword .function),
  ("gt", .operator .greater),
  ("gteq", .operator .greaterEqual),
  ("i16", .typeName (.number (.signed .w16))),
  ("i32", .typeName (.number (.signed .w32))),
  ("i64", .typeName (.number (.signed .w64))),
  ("i8", .typeName (.number (.signed .w8))),
  ("if", .keyword .condition),
  ("inc", .operator .inc),
  ("inl", .keyword .inline),
  ("land", .operator .logicalAnd),
  ("ld16", .operator (.load .w16)),
  ("ld32", .operator (.load .w32)),
  ("ld64", .operator (.load .w64)),
  ("ld8", .operator (.load .w8)),
  ("lnot", .operator .logicalNot),
  ("loop", .keyword .loop),
  ("lor", .operator .logicalOr),
  ("ls", .operator .less),
  ("lseq", .operator .lessEqual),
  ("lxor", .operator .logicalXor),
  ("mem", .keyword .memory),
  ("mod", .operator .mod),
  ("mul", .operator .mul),
  ("neq", .operator .notEqual),
  ("over", .operator .over),
  ("ptr", .typeName .pointer),
  ("req", .keyword .requires),
  ("ret", .keyword .returns),
  ("rot", .operator .rot),
  ("sec", .keyword .inSection),
  ("shl", .operator .shiftLeft),
  ("shr", .operator .shiftRight),
  ("st16", .operator (.store .w16)),
  ("st32", .operator (.store .w32)),
  ("st64", .operator (.store .w64)),
  ("st8", .operator (.store .w8)),
  ("str", .keyword .string),
  ("sub", .operator .sub),
  ("swap", .operator .swap),
  ("sys1", .operator (.syscall 0)),
  ("sys2", .operator (.syscall 1)),
  ("sys3", .operator (.syscall 2)),
  ("sys4", .operator (.syscall 3)),
  ("sys5", .operator (.syscall 4)),
  ("sys6", .operator (.syscall 5)),
  ("true", .operator (.constant true)),
  ("u16", .typeName (.number (.unsigned .w16))),
  ("u32", .typeName (.number (.unsigned .w32))),
  ("u64", .typeName (.number (.unsigned .w64))),
  ("u8", .typeName (.number (.unsigned .w8))),
  ("\x7b", .opening .brace),
  ("\x7d", .closing .brace)]

/-- **The kind of a fixed word.** -/
def ofSpelling? (text : String) : Option TokenKind :=
  searchSorted reserved text 0 reserved.size

/-- The fixed word of a kind, if it has one. -/
def spelling? (kind : TokenKind) : Option String :=
  (reserved.toList.find? fun entry => entry.2 == kind).map Prod.fst

/-- **The name of a kind** in messages, outlines and assembly comments. -/
def name (kind : TokenKind) : String :=
  match kind with
  | .number type => "literal_" ++ type.spelling
  | .string terminated => if terminated then "literal_cstr" else "literal_str"
  | .identifier => "identifier"
  | .eof => "eof"
  | .none => "none"
  | _ => kind.spelling?.getD "reserved"

/-! ## Classes of kinds -/

/-- Does the kind end a sequence of tokens? -/
def isStop : TokenKind → Bool
  | .eof | .none => true
  | _ => false

theorem ne_eof_of_isStop {kind : TokenKind} (h : kind.isStop = false) : kind ≠ .eof := by
  rintro rfl
  cases h

/-- Is it the name of a type? -/
def isType : TokenKind → Bool
  | .typeName _ => true
  | _ => false

/-- Is it a signed integer literal? -/
def isSignedLiteral : TokenKind → Bool
  | .number (.signed _) => true
  | _ => false

/-- Is it an unsigned integer literal? -/
def isUnsignedLiteral : TokenKind → Bool
  | .number (.unsigned _) => true
  | _ => false

/-- Is it a floating point literal? -/
def isFloatLiteral : TokenKind → Bool
  | .number type => type.isFloat
  | _ => false

/-- Is it a string literal? -/
def isStringLiteral : TokenKind → Bool
  | .string _ => true
  | _ => false

/-- Is it a numeric literal? -/
def isNumericLiteral : TokenKind → Bool
  | .number _ => true
  | _ => false

/-- Does a token of this kind form a block on its own? -/
def isExpression : TokenKind → Bool
  | .number _ | .operator _ => true
  | _ => false

/-- Does it open a definition? -/
def isDefinitionKeyword : TokenKind → Bool
  | .keyword .function | .keyword .memory | .keyword .string | .keyword .inSection => true
  | _ => false

/-- Is it a closing bracket? -/
def isClosing : TokenKind → Bool
  | .closing _ => true
  | _ => false

/-- The bracket pair that the kind opens. -/
def opens? : TokenKind → Option Bracket
  | .opening bracket => some bracket
  | _ => Option.none

end TokenKind

end StackCompiler
