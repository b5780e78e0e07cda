import StackCompiler.Proofs.Grammar.Phrase

/-!
# Building a phrase

The nodes of a phrase are added by recursion over the phrase: first those of its parts, from left to
right, then its own. The alternative of a branch is built after the branch, which is then joined to
it; the body of a function is added empty, and filled when its blocks are there.

* **`Phrase.build`**: the nodes of a phrase.
* `DefinitionPhrase.build`: the nodes of a definition.
-/

namespace StackCompiler

/-- What a phrase leaves behind: a scope is one block, anything else a row of blocks. -/
abbrev Nonterminal.Handle : Nonterminal → Type
  | .scope => BlockId
  | .block | .blocks | .chain => List BlockId

/-! ## Parts -/

/-- A reference to what a name stands for, which is used from now on. -/
def addReference (name : Token) : ParseM BlockId := do
  match (← get).symbols.lookup name.text with
  | none => failAt name (.undefinedName name.text)
  | some target =>
    modify fun workspace =>
      { workspace with store := workspace.store.modifyDef target ({ · with used := true }) }
    addBlock (.reference name target)

/-- A reference to a function, and its call. -/
def addCall (name keyword : Token) : ParseM BlockId := do
  let callee ← addReference name
  if namesFunction (← get).store callee then addBlock (.call keyword.location callee)
  else failAt keyword .invalidCall

/-- Refuses a scope that lies too deep. -/
def checkDepth (options : ParseOptions) (opener : Token) (depth : Nat) : ParseM Unit :=
  if options.maxDepth < depth then failAt opener (.nestingLimit options.maxDepth) else return

/-- Joins a branch to its alternative, if there is one. -/
def joinChain (branch : BlockId) : List BlockId → ParseM Unit
  | [] => return
  | alternative :: _ => joinAlternative branch alternative

/-- **A branch and its alternative**, from the condition on. -/
def addBranch (keyword : Token) (index : Nat) (condition body : ParseM BlockId)
    (chain : ParseM (List BlockId)) : ParseM (List BlockId) := do
  let condition ← condition
  let body ← body
  let branch ← addBlock (.branch keyword.location condition body none index)
  let alternatives ← chain
  joinChain branch alternatives
  return branch :: alternatives

/-! ## Phrases -/

/-- **Adds the nodes of a phrase** that lies inside a number of scopes. -/
def Phrase.build (options : ParseOptions) :
    {n : Nonterminal} → Phrase n → (depth : Nat) → ParseM n.Handle
  | _, .expression token, _ => return [← addBlock (.expression token.1)]
  | _, .reference name, _ => return [← addReference name.1]
  | _, .call name keyword, _ => return [← addCall name.1 keyword.1]
  | _, .cast keyword types, _ => return [← addBlock (.cast keyword.1.location types.1)]
  | _, .nested scope, depth => return [← scope.build options depth]
  | _, .branch keyword condition body chain, depth => do
    addBranch keyword.1 (← takeIndex) (condition.build options depth) (body.build options depth)
      (chain.build options depth)
  | _, .loop keyword condition body, depth => do
    let index ← takeIndex
    let condition ← condition.build options depth
    let body ← body.build options depth
    return [← addBlock (.loop keyword.1.location condition body index)]
  | _, .assembly _ literal, _ => return [← addBlock (.assembly literal.1)]
  | _, .nil, _ => return []
  | _, .cons first rest, depth => do
    let ids ← first.build options depth
    return ids ++ (← rest.build options depth)
  | _, .enclosed bracket opener inside _, depth => do
    checkDepth options opener.1 (depth + 1)
    let ids ← inside.build options (depth + 1)
    addBlock (.scope bracket opener.1.location ids)
  | _, .stop, _ => return []
  | _, .otherwise keyword body, depth => do
    let index ← takeIndex
    let body ← body.build options depth
    return [← addBlock (.alternative keyword.1.location body index)]
  | _, .elseIf keyword condition body chain, depth => do
    let index ← takeIndex
    -- the rest of the chain lies in a scope of its own
    let ids ← addBranch keyword.1 (← takeIndex) (condition.build options (depth + 1))
      (body.build options (depth + 1)) (chain.build options (depth + 1))
    let body ← addBlock (.scope .brace keyword.1.location ids)
    return [← addBlock (.alternative keyword.1.location body index)]

/-! ## Definitions -/

/-- Refuses a name that is taken. -/
def checkName (name : Token) : ParseM Unit := do
  if ((← get).symbols.lookup name.text).isSome then failAt name (.redefinedName name.text)

/-- The types that a signature adds. -/
def SignaturePhrase.addTo (s : SignaturePhrase) (signature : Signature) : Signature :=
  let signature := s.requires.elim signature fun c => signature.add .requires c.types.1
  s.returns.elim signature fun c => signature.add .returns c.types.1

/-- The types that a function takes and leaves. -/
def FunctionPhrase.types (f : FunctionPhrase) : Signature :=
  f.signature.addTo (f.parens.elim {} fun p => p.2.1.addTo {})

/-- A function begins: an empty body, and the definition. -/
def beginFunction (options : ParseOptions) (header : Header) (signature : Signature)
    (opener : Token) : ParseM BlockId := do
  let isEntry := header.ident.text == options.entry
  let body ← addBlock (.scope .brace opener.location [])
  define ⟨header.keyword.location, header.ident, header.place, isEntry, 0,
    .function ⟨signature.requires, signature.returns, body, isEntry⟩⟩
  checkDepth options opener 1
  return body

/-- The keyword of a definition. -/
def SubjectPhrase.keyword : SubjectPhrase → Token
  | .function f => f.keyword.1
  | .memory m => m.keyword.1
  | .string s => s.keyword.1

/-- The section of a definition. -/
def DefinitionPhrase.placeToken (d : DefinitionPhrase) : Token :=
  d.place.elim (Token.synthetic d.subject.family.defaultSection d.subject.keyword.location)
    fun p => p.2.1

/-- The beginning of a definition. -/
def DefinitionPhrase.header (d : DefinitionPhrase) : Header :=
  ⟨d.subject.keyword, d.subject.name, d.placeToken⟩

/-- Adds the nodes of what is defined. -/
def SubjectPhrase.build (options : ParseOptions) (header : Header) : SubjectPhrase → ParseM Unit
  | .function f => do
    let body ← beginFunction options header f.types f.opener.1
    let ids ← f.inside.build options 1
    fillScope body ids
  | .memory m =>
    define ⟨header.keyword.location, header.ident, header.place, false, 0, .memory m.capacity.1⟩
  | .string s =>
    define ⟨header.keyword.location, header.ident, header.place, false, 0, .string s.literal.1⟩

/-- **Adds the nodes of a definition.** -/
def DefinitionPhrase.build (options : ParseOptions) (d : DefinitionPhrase) : ParseM Unit := do
  checkName d.subject.name
  d.subject.build options d.header

end StackCompiler
