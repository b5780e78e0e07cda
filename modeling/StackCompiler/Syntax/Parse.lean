import StackCompiler.Syntax.Open
import StackCompiler.Token.Lexer

/-!
# Parsing

Parsing reads tokens one at a time, from left to right. What has been read is summed up in a state;
every token leads to the next state, adding finished nodes to the store. So a unit is parsed by
folding `step` over its tokens.

* `ParseState`: what may come next.
* `step`: the next state.
* `parseTokens`: a sequence of tokens.
* `parseChars`: a text.

A name stands for a definition that begins earlier, or for the function around it.
-/

namespace StackCompiler

/-- Options of the parser. -/
structure ParseOptions where
  /-- The name of the function the program starts with. -/
  entry : String := "main"
  /-- The largest number of scopes open at a time. -/
  maxDepth : Nat := 256
  deriving DecidableEq, Repr

/-- **What parsing builds up.** It is kept when parsing fails. -/
structure Workspace where
  /-- The nodes. -/
  store : Store
  /-- The definitions by name, in order. -/
  symbols : List (String × DefId)
  /-- The next number for a branch, alternative or loop. -/
  nextIndex : Nat
  deriving DecidableEq, Repr

/-- Steps of parsing that can fail. -/
abbrev ParseM := EStateM ParseError Workspace

/-! ## Basic steps -/

/-- Fails at a token. -/
def failAt (token : Token) (cause : ParseFault) : ParseM α :=
  throw ⟨cause, some token.location⟩

/-- Fails where something else was expected. The end of input has a fault of its own. -/
def reject (token : Token) (expected : Expectation) : ParseM α :=
  if token.kind = .eof then failAt token (.endOfInput expected)
  else failAt token (.unexpected expected token.shown)

/-- The next number for a branch, alternative or loop. -/
def takeIndex : ParseM Nat := do
  let workspace ← get
  set { workspace with nextIndex := workspace.nextIndex + 1 }
  return workspace.nextIndex

/-- Refuses when the store is full. -/
def reserve : ParseM Unit := do
  match (← get).store.reserve with
  | .ok _ => return
  | .error refusal => throw ⟨.nodeLimit refusal, none⟩

/-- Adds a block to the store. -/
def addBlock (block : Block) : ParseM BlockId := do
  reserve
  modifyGet fun ⟨store, symbols, nextIndex⟩ =>
    let (id, store) := store.pushBlock block
    (id, ⟨store, symbols, nextIndex⟩)

/-- Changes a block of the store. -/
def modifyBlock (id : BlockId) (f : Block → Block) : ParseM Unit :=
  modify fun workspace => { workspace with store := workspace.store.modifyBlock id f }

/-- **Adds a definition and its name.** Its number is that of the definitions before it. -/
def define (d : Definition) : ParseM Unit := do
  reserve
  modify fun ⟨store, symbols, nextIndex⟩ =>
    let (id, store) := store.pushDef { d with index := symbols.length }
    ⟨store, symbols ++ [(d.ident.text, id)], nextIndex⟩

/-! ## States -/

/-- The three families of definitions. -/
inductive Family where
  | function
  | memory
  | string
  deriving DecidableEq, Repr

namespace Family

/-- The family that a keyword opens. -/
def ofKind? : TokenKind → Option Family
  | .keyword .function => some .function
  | .keyword .memory => some .memory
  | .keyword .string => some .string
  | _ => none

/-- The section for definitions that name none. -/
def defaultSection : Family → String
  | .function => ".text"
  | .memory => ".bss"
  | .string => ".data"

end Family

/-- The beginning of a definition. -/
structure Header where
  /-- The keyword. -/
  keyword : Token
  /-- The name. -/
  ident : Token
  /-- The section. -/
  place : Token
  deriving DecidableEq, Repr

/-- The types that a function takes and leaves. -/
structure Signature where
  /-- The types it takes. -/
  requires : List Token := []
  /-- The types it leaves. -/
  returns : List Token := []
  deriving DecidableEq, Repr

/-- The two clauses of a signature. -/
inductive Clause where
  | requires
  | returns
  deriving DecidableEq, Repr

/-- Adds the types of a clause. -/
def Signature.add (signature : Signature) (clause : Clause) (types : List Token) : Signature :=
  match clause with
  | .requires => { signature with requires := signature.requires ++ types }
  | .returns => { signature with returns := signature.returns ++ types }

/-- **What may come next.** -/
inductive ParseState where
  /-- A definition or the end of input. -/
  | definition
  /-- The name of a section. -/
  | sectionName
  /-- The keyword of a definition for that section. -/
  | definitionKeyword (place : Token)
  /-- The name of a definition. -/
  | definitionName (family : Family) (keyword place : Token)
  /-- A signature in parentheses, or one without. -/
  | afterName (header : Header)
  /-- The first clause of a signature, in parentheses or not. -/
  | signature (header : Header) (signature : Signature) (parens : Bool)
  /-- The types of a clause, given those read so far. -/
  | clauseTypes (header : Header) (signature : Signature) (parens : Bool) (clause : Clause)
      (keyword : Token) (types : List Token)
  /-- The size of a memory region. -/
  | capacity (header : Header)
  /-- The literal of a string constant. -/
  | literal (header : Header)
  /-- A block, or the end of the innermost scope. -/
  | block (scope : OpenScope)
  /-- The types of a cast, given those read so far. -/
  | castTypes (scope : OpenScope) (keyword : Token) (types : List Token)
  /-- The literal of a line of assembly. -/
  | assemblyLine (scope : OpenScope) (keyword : Token)
  /-- The bracket that opens a scope. -/
  | opening (scope : OpenScope) (purpose : Purpose)
  /-- An alternative of the branch that was just read, or whatever may follow it. -/
  | afterBranch (scope : OpenScope) (branch : BlockId)
  deriving DecidableEq, Repr

/-! ## Definitions -/

/-- A definition begins, or its keyword follows the name of a section. -/
def beginDefinition (place : Option Token) (token : Token) : ParseM ParseState :=
  match Family.ofKind? token.kind with
  | some family =>
    return .definitionName family token
      (place.getD (Token.synthetic family.defaultSection token.location))
  | none => reject token .definitionKeyword

/-- The name of a definition, which must be free. -/
def nameDefinition (family : Family) (keyword place token : Token) : ParseM ParseState := do
  if token.kind ≠ .identifier then reject token (.definitionName keyword.text)
  else if ((← get).symbols.lookup token.text).isSome then
    failAt token (.redefinedName token.text)
  else
    let header : Header := ⟨keyword, token, place⟩
    return match family with
      | .function => .afterName header
      | .memory => .capacity header
      | .string => .literal header

/-- **The body of a function opens.** The function is defined first, so that it can call itself. -/
def openFunction (options : ParseOptions) (header : Header) (signature : Signature)
    (opener : Token) : ParseM ParseState := do
  let isEntry := header.ident.text == options.entry
  let body ← addBlock (.scope .brace opener.location [])
  define ⟨header.keyword.location, header.ident, header.place, isEntry, 0,
    .function ⟨signature.requires, signature.returns, body, isEntry⟩⟩
  if options.maxDepth < 1 then failAt opener (.nestingLimit options.maxDepth)
  return .block (.function ⟨.brace, opener, 1, [], []⟩ body)

/-- What follows a signature: its closing parenthesis, or the body of the function. -/
def endSignature (options : ParseOptions) (header : Header) (signature : Signature) (parens : Bool)
    (token : Token) : ParseM ParseState :=
  if parens then
    if token.kind = .closing .paren then return .signature header signature false
    else reject token (.signatureEnd header.ident.text)
  else if token.kind = .opening .brace then openFunction options header signature token
  else reject token (.functionBody header.ident.text)

/-- The first clause of a signature, or what follows an empty one. -/
def beginSignature (options : ParseOptions) (header : Header) (signature : Signature)
    (parens : Bool) (token : Token) : ParseM ParseState :=
  match token.kind with
  | .keyword .requires => return .clauseTypes header signature parens .requires token []
  | .keyword .returns => return .clauseTypes header signature parens .returns token []
  | _ => endSignature options header signature parens token

/-- One more type of a clause, or what follows the clause. -/
def clauseType (options : ParseOptions) (header : Header) (signature : Signature) (parens : Bool)
    (clause : Clause) (keyword : Token) (types : List Token) (token : Token) : ParseM ParseState :=
  if token.kind.isType then
    return .clauseTypes header signature parens clause keyword (types ++ [token])
  else if types.isEmpty then reject token (.signatureType keyword.text)
  else
    let signature := signature.add clause types
    if clause = .requires ∧ token.kind = .keyword .returns then
      return .clauseTypes header signature parens .returns token []
    else endSignature options header signature parens token

/-- Can the literal be the size of a memory region? -/
def isCapacity (token : Token) : Bool :=
  token.kind.isUnsignedLiteral ||
    (token.kind.isSignedLiteral && (token.int?.map fun n => decide (0 ≤ n)).getD false)

/-- The size of a memory region. -/
def endMemory (header : Header) (token : Token) : ParseM ParseState := do
  if isCapacity token then
    define ⟨header.keyword.location, header.ident, header.place, false, 0, .memory token⟩
    return .definition
  else reject token (.capacity header.ident.text)

/-- The literal of a string constant. -/
def endString (header : Header) (token : Token) : ParseM ParseState := do
  if token.kind.isStringLiteral then
    define ⟨header.keyword.location, header.ident, header.place, false, 0, .string token⟩
    return .definition
  else reject token (.literal header.ident.text)

/-! ## Scopes -/

/-- Joins a branch to its alternative. -/
def joinAlternative (branch alternative : BlockId) : ParseM Unit :=
  modifyBlock branch fun block =>
    match block with
    | .branch location condition body _ index =>
      .branch location condition body (some alternative) index
    | other => other

/-- **Closes chains, from the innermost outward.** `finished` is what the chain inside left behind,
and the result is what goes into the scope, the newest first. -/
def closeChains (finished : List BlockId) : List Chain → ParseM (List BlockId)
  | [] => return finished
  | chain :: outer => do
    let body ← addBlock (.scope .brace chain.location (finished ++ chain.blocks).reverse)
    let alternative ← addBlock (.alternative chain.location body chain.index)
    joinAlternative chain.branch alternative
    closeChains [alternative] outer

/-- Closes every chain of the innermost scope. -/
def settle (scope : OpenScope) : ParseM OpenScope := do
  let finished ← closeChains [] scope.interior.chains
  return scope.modify fun interior =>
    { interior with blocks := finished ++ interior.blocks, chains := [] }

/-- **A scope opens** inside another one. -/
def openScope (options : ParseOptions) (scope : OpenScope) (purpose : Purpose) (bracket : Bracket)
    (opener : Token) : ParseM ParseState := do
  if options.maxDepth < scope.innerDepth then failAt opener (.nestingLimit options.maxDepth)
  return .block (.nested ⟨bracket, opener, scope.innerDepth, [], []⟩ purpose scope)

/-- The body of a function takes its blocks. -/
def fillScope (id : BlockId) (children : List BlockId) : ParseM Unit :=
  modifyBlock id fun block =>
    match block with
    | .scope bracket location _ => .scope bracket location children
    | other => other

/-- **The innermost scope closes** and serves its purpose. -/
def closeScope : OpenScope → ParseM ParseState
  | .function interior body => do
    fillScope body interior.blocks.reverse
    return .definition
  | .nested interior purpose outer => do
    let id ← addBlock (.scope interior.bracket interior.opener.location interior.blocks.reverse)
    match purpose with
    | .plain => return .block (outer.push id)
    | .branchCondition keyword index => return .opening outer (.branchBody keyword index id)
    | .branchBody keyword index condition =>
      let branch ← addBlock (.branch keyword.location condition id none index)
      return .afterBranch (outer.push branch) branch
    | .alternative keyword index branch =>
      let alternative ← addBlock (.alternative keyword.location id index)
      joinAlternative branch alternative
      return .block (← settle (outer.push alternative))
    | .loopCondition keyword index => return .opening outer (.loopBody keyword index id)
    | .loopBody keyword index condition =>
      let loop ← addBlock (.loop keyword.location condition id index)
      return .block (outer.push loop)

/-! ## Blocks -/

/-- Adds a block to the innermost scope. -/
def addTo (scope : OpenScope) (block : Block) : ParseM OpenScope := do
  return scope.push (← addBlock block)

/-- **A name stands for a definition**, which is used from now on. -/
def reference (scope : OpenScope) (token : Token) : ParseM ParseState := do
  match (← get).symbols.lookup token.text with
  | none => failAt token (.undefinedName token.text)
  | some target =>
    modify fun workspace =>
      { workspace with store := workspace.store.modifyDef target ({ · with used := true }) }
    return .block (← addTo scope (.reference token target))

/-- Does the block name a function? -/
def namesFunction (store : Store) (id : BlockId) : Bool :=
  match store.block? id with
  | some (.reference _ target) => ((store.def? target).map Definition.isFunction).getD false
  | _ => false

/-- **A call takes the name right before it**, which must stand for a function. -/
def call (scope : OpenScope) (token : Token) : ParseM ParseState := do
  match scope.interior.blocks with
  | [] => failAt token .invalidCall
  | callee :: before =>
    if namesFunction (← get).store callee then
      let scope := scope.modify fun interior => { interior with blocks := before }
      return .block (← addTo scope (.call token.location callee))
    else failAt token .invalidCall

/-- **The first token of a block.** -/
def beginBlock (options : ParseOptions) (scope : OpenScope) (token : Token) : ParseM ParseState :=
  match token.kind with
  | .number _ | .operator _ => return .block (← addTo scope (.expression token))
  | .identifier => reference scope token
  | .keyword .call => call scope token
  | .keyword .asType => return .castTypes scope token []
  | .opening bracket => openScope options scope .plain bracket token
  | .keyword .condition => return .opening scope (.branchCondition token (← takeIndex))
  | .keyword .elseIf | .keyword .otherwise => failAt token (.danglingAlternative token.text)
  | .keyword .loop => return .opening scope (.loopCondition token (← takeIndex))
  | .keyword .assembly => return .assemblyLine scope token
  | _ => failAt token (.unexpected .block token.shown)

/-- **A token inside a scope**: the bracket that closes it, or the beginning of a block. -/
def inScope (options : ParseOptions) (scope : OpenScope) (token : Token) : ParseM ParseState :=
  let opener := scope.interior.opener
  if token.kind = .closing scope.interior.bracket then closeScope scope
  else if token.kind.isStop then failAt opener (.unclosedScope opener.text)
  else if token.kind.isClosing then
    failAt token (.mismatchedClose token.text opener.text opener.location)
  else if token.kind.isDefinitionKeyword then failAt token (.insideScope token.shown)
  else beginBlock options scope token

/-- One more type of a cast, or what follows the cast. -/
def castType (options : ParseOptions) (scope : OpenScope) (keyword : Token) (types : List Token)
    (token : Token) : ParseM ParseState := do
  if token.kind.isType then return .castTypes scope keyword (types ++ [token])
  else if types.isEmpty then reject token (.castType keyword.text)
  else inScope options (← addTo scope (.cast keyword.location types)) token

/-- The literal of a line of assembly. -/
def endAssembly (scope : OpenScope) (keyword token : Token) : ParseM ParseState := do
  if token.kind.isStringLiteral then return .block (← addTo scope (.assembly token))
  else reject token (.assemblyLine keyword.text)

/-- **What follows a branch**: its alternative, a further branch in place of it, or neither. -/
def afterBranch (options : ParseOptions) (scope : OpenScope) (branch : BlockId) (token : Token) :
    ParseM ParseState := do
  match token.kind with
  | .keyword .otherwise => return .opening scope (.alternative token (← takeIndex) branch)
  | .keyword .elseIf =>
    let scope := scope.openChain ⟨token.location, ← takeIndex, branch, []⟩
    return .opening scope (.branchCondition token (← takeIndex))
  | _ => inScope options (← settle scope) token

/-! ## Units -/

/-- **The state after one more token.** -/
def step (options : ParseOptions) (state : ParseState) (token : Token) : ParseM ParseState :=
  match state with
  | .definition =>
    if token.kind.isStop then return .definition
    else if token.kind = .keyword .inSection then return .sectionName
    else if token.kind.isDefinitionKeyword then beginDefinition none token
    else failAt token (.outsideDefinition token.shown)
  | .sectionName =>
    if token.kind = .identifier then return .definitionKeyword token
    else reject token .sectionName
  | .definitionKeyword place => beginDefinition (some place) token
  | .definitionName family keyword place => nameDefinition family keyword place token
  | .afterName header =>
    if token.kind = .opening .paren then return .signature header {} true
    else beginSignature options header {} false token
  | .signature header signature parens => beginSignature options header signature parens token
  | .clauseTypes header signature parens clause keyword types =>
    clauseType options header signature parens clause keyword types token
  | .capacity header => endMemory header token
  | .literal header => endString header token
  | .block scope => inScope options scope token
  | .castTypes scope keyword types => castType options scope keyword types token
  | .assemblyLine scope keyword => endAssembly scope keyword token
  | .opening scope purpose =>
    match token.kind.opens? with
    | some bracket => openScope options scope purpose bracket token
    | none => failAt token (purpose.missing token.shown)
  | .afterBranch scope branch => afterBranch options scope branch token

/-- **Parses a run of tokens.** A lexical error ends the run after the tokens before it. -/
def parseTokens (options : ParseOptions) (tokens : List Token) (error : Option LexError) :
    ParseM (List DefId) := do
  let _ ← tokens.foldlM (step options) ParseState.definition
  match error with
  | some e => throw ⟨.lexical e.cause, some e.location⟩
  | none => return (← get).symbols.map Prod.snd

/-- **The outcome of parsing**: the definitions of the unit or an error, and the store. -/
structure Parsed where
  /-- The definitions of the unit, in order. -/
  outcome : Except ParseError (List DefId)
  /-- The store, with the nodes that were added. -/
  store : Store
  deriving Repr

/-- **Parses what a lexer has still to read.** -/
def parseLexer (options : ParseOptions) (store : Store) (lexer : Lexer) : Parsed :=
  let whole := lexer.run
  match parseTokens options whole.tokens whole.error ⟨store, [], 0⟩ with
  | .ok unit workspace => ⟨.ok unit, workspace.store⟩
  | .error e workspace => ⟨.error e, workspace.store⟩

/-- **Parses a text into a store.** -/
def parseChars (options : ParseOptions) (store : Store) (source : List Char) : Parsed :=
  parseLexer options store (Lexer.ofChars source)

end StackCompiler
