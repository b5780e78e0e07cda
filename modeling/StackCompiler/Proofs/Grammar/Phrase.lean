import StackCompiler.Syntax.Parse

/-!
# The grammar

A phrase is a derivation tree of the grammar: its constructors are the productions, its leaves are
tokens of the kinds that the productions ask for. The tokens of a phrase, from left to right, are
the text that it derives.

* `Word`, `TypeRun`: tokens of a kind, a run of types.
* `Phrase`: the inside of functions, by nonterminal.
* `FunctionPhrase`, `MemoryPhrase`, `StringPhrase`, `DefinitionPhrase`: definitions.
* **`WellNamed`**: no name is defined twice, every name in a body stands for a definition that begins
  earlier or for the function around it, and what is called is a function.
-/

namespace StackCompiler

/-! ## Terminals -/

abbrev Word (kind : TokenKind) : Type := { token : Token // token.kind = kind }

/-- At least one type. -/
abbrev TypeRun : Type := { types : List Token // types ≠ [] ∧ ∀ t ∈ types, t.kind.isType }

abbrev Quote : Type := { token : Token // token.kind.isStringLiteral }

/-- An integer literal that is not negative. -/
def IsSize (token : Token) : Prop :=
  (∃ width, token.kind = .number (.unsigned width)) ∨
    ∃ width n, token.kind = .number (.signed width) ∧ token.value = .int n ∧ 0 ≤ n

/-! ## Blocks -/

/-- What the inside of a function is made of. -/
inductive Nonterminal where
  | block
  | blocks
  /-- Blocks between brackets. -/
  | scope
  /-- What follows the body of a branch. -/
  | chain
  deriving DecidableEq

/-- **A derivation from a nonterminal.** -/
inductive Phrase : Nonterminal → Type where
  /-- An operator, or a numeric or boolean literal. -/
  | expression (token : { token : Token // token.kind.isExpression }) : Phrase .block
  | reference (name : Word .identifier) : Phrase .block
  /-- A name and `call`. -/
  | call (name : Word .identifier) (keyword : Word (.keyword .call)) : Phrase .block
  /-- `as` and types. -/
  | cast (keyword : Word (.keyword .asType)) (types : TypeRun) : Phrase .block
  | nested (scope : Phrase .scope) : Phrase .block
  /-- `if`, its condition and body, and what follows. -/
  | branch (keyword : Word (.keyword .condition)) (condition body : Phrase .scope)
      (chain : Phrase .chain) : Phrase .block
  /-- `loop`, its condition and body. -/
  | loop (keyword : Word (.keyword .loop)) (condition body : Phrase .scope) : Phrase .block
  /-- `asm` and a string literal. -/
  | assembly (keyword : Word (.keyword .assembly)) (literal : Quote) : Phrase .block
  | nil : Phrase .blocks
  | cons (first : Phrase .block) (rest : Phrase .blocks) : Phrase .blocks
  /-- Blocks between two brackets of a pair. -/
  | enclosed (bracket : Bracket) (opener : Word (.opening bracket)) (inside : Phrase .blocks)
      (closer : Word (.closing bracket)) : Phrase .scope
  | stop : Phrase .chain
  /-- `else` and its body. -/
  | otherwise (keyword : Word (.keyword .otherwise)) (body : Phrase .scope) : Phrase .chain
  /-- `elif`, its condition and body, and what follows. -/
  | elseIf (keyword : Word (.keyword .elseIf)) (condition body : Phrase .scope)
      (chain : Phrase .chain) : Phrase .chain

/-- **The tokens that a phrase derives.** -/
def Phrase.tokens {n : Nonterminal} : Phrase n → List Token
  | .expression token => [token.1]
  | .reference name => [name.1]
  | .call name keyword => [name.1, keyword.1]
  | .cast keyword types => keyword.1 :: types.1
  | .nested scope => scope.tokens
  | .branch keyword condition body chain =>
    keyword.1 :: (condition.tokens ++ (body.tokens ++ chain.tokens))
  | .loop keyword condition body => keyword.1 :: (condition.tokens ++ body.tokens)
  | .assembly keyword literal => [keyword.1, literal.1]
  | .nil => []
  | .cons first rest => first.tokens ++ rest.tokens
  | .enclosed _ opener inside closer => opener.1 :: (inside.tokens ++ [closer.1])
  | .stop => []
  | .otherwise keyword body => keyword.1 :: body.tokens
  | .elseIf keyword condition body chain =>
    keyword.1 :: (condition.tokens ++ (body.tokens ++ chain.tokens))

/-! ## Definitions -/

/-- A keyword and types. -/
structure ClausePhrase (word : Keyword) where
  keyword : Word (.keyword word)
  types : TypeRun

/-- The types a function takes, and those it leaves. -/
structure SignaturePhrase where
  requires : Option (ClausePhrase .requires)
  returns : Option (ClausePhrase .returns)

/-- **A function.** The first of its two signatures stands in parentheses. -/
structure FunctionPhrase where
  keyword : Word (.keyword .function)
  name : Word .identifier
  parens : Option (Word (.opening .paren) × SignaturePhrase × Word (.closing .paren))
  signature : SignaturePhrase
  opener : Word (.opening .brace)
  inside : Phrase .blocks
  closer : Word (.closing .brace)

/-- **A memory region.** -/
structure MemoryPhrase where
  keyword : Word (.keyword .memory)
  name : Word .identifier
  capacity : { token : Token // IsSize token }

/-- **A string constant.** -/
structure StringPhrase where
  keyword : Word (.keyword .string)
  name : Word .identifier
  literal : Quote

/-- The three families of definitions. -/
inductive SubjectPhrase where
  | function (f : FunctionPhrase)
  | memory (m : MemoryPhrase)
  | string (s : StringPhrase)

/-- **A definition**, perhaps with `sec` and the name of a section in front. -/
structure DefinitionPhrase where
  place : Option (Word (.keyword .inSection) × Word .identifier)
  subject : SubjectPhrase

def ClausePhrase.tokens {word : Keyword} (c : ClausePhrase word) : List Token :=
  c.keyword.1 :: c.types.1

def SignaturePhrase.tokens (s : SignaturePhrase) : List Token :=
  s.requires.elim [] ClausePhrase.tokens ++ s.returns.elim [] ClausePhrase.tokens

/-- The tokens of a signature in parentheses. -/
def parensTokens : Option (Word (.opening .paren) × SignaturePhrase × Word (.closing .paren)) →
    List Token
  | none => []
  | some (opener, signature, closer) => opener.1 :: (signature.tokens ++ [closer.1])

/-- The tokens from the keyword of a definition on. -/
def SubjectPhrase.tokens : SubjectPhrase → List Token
  | .function f =>
    f.keyword.1 :: f.name.1 :: (parensTokens f.parens ++ (f.signature.tokens ++
      f.opener.1 :: (f.inside.tokens ++ [f.closer.1])))
  | .memory m => [m.keyword.1, m.name.1, m.capacity.1]
  | .string s => [s.keyword.1, s.name.1, s.literal.1]

def placeTokens : Option (Word (.keyword .inSection) × Word .identifier) → List Token
  | none => []
  | some (keyword, name) => [keyword.1, name.1]

/-- **The tokens that a definition derives.** -/
def DefinitionPhrase.tokens (d : DefinitionPhrase) : List Token :=
  placeTokens d.place ++ d.subject.tokens

def SubjectPhrase.name : SubjectPhrase → Token
  | .function f => f.name.1
  | .memory m => m.name.1
  | .string s => s.name.1

def SubjectPhrase.family : SubjectPhrase → Family
  | .function _ => .function
  | .memory _ => .memory
  | .string _ => .string

/-! ## Names -/

/-- Names with the families of what they stand for. -/
abbrev Names : Type := List (String × Family)

/-- **Every name in a phrase is known**, and what is called is a function. -/
def Phrase.WellNamed (names : Names) {n : Nonterminal} : Phrase n → Prop
  | .reference name => ∃ family, (name.1.text, family) ∈ names
  | .call name _ => (name.1.text, Family.function) ∈ names
  | .expression _ | .cast .. | .assembly .. | .nil | .stop => True
  | .nested scope => scope.WellNamed names
  | .branch _ condition body chain =>
    condition.WellNamed names ∧ body.WellNamed names ∧ chain.WellNamed names
  | .loop _ condition body => condition.WellNamed names ∧ body.WellNamed names
  | .cons first rest => first.WellNamed names ∧ rest.WellNamed names
  | .enclosed _ _ inside _ => inside.WellNamed names
  | .otherwise _ body => body.WellNamed names
  | .elseIf _ condition body chain =>
    condition.WellNamed names ∧ body.WellNamed names ∧ chain.WellNamed names

/-- Every name inside a definition is known. -/
def SubjectPhrase.WellNamed (names : Names) : SubjectPhrase → Prop
  | .function f => f.inside.WellNamed names
  | .memory _ | .string _ => True

/-- A definition adds its name. -/
def SubjectPhrase.entry (s : SubjectPhrase) : String × Family := (s.name.text, s.family)

/-- **Definitions in a row are well named**, given the names before them. A function knows itself. -/
def WellNamed (names : Names) : List DefinitionPhrase → Prop
  | [] => True
  | d :: rest =>
    d.subject.name.text ∉ names.map Prod.fst ∧
      d.subject.WellNamed (names ++ [d.subject.entry]) ∧
      WellNamed (names ++ [d.subject.entry]) rest

end StackCompiler
