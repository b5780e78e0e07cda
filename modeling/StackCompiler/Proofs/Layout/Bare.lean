import StackCompiler.Proofs.Grammar.Steps
import StackCompiler.Proofs.Token.Partition

/-!
# Locations and limits

Two texts with the same words have the same tokens, up to the places where they stand. So everything
that parsing handles is compared without its locations. The limits may be compared at the same time:
the bare form of a store has room for more nodes.

* `Token.word`: what a token is, wherever it stands.
* `Token.bare`, `Block.bare`, `ParseState.bare`: without locations.
* `Store.bare`, `Workspace.bare`: without locations, and with a higher limit.
-/

namespace StackCompiler

/-! ## Tokens -/

/-- **What a token is, wherever it stands**: its kind, value and text. -/
def Token.word (token : Token) : TokenKind × TokenValue × String :=
  (token.kind, token.value, token.text)

/-- **A token without its location.** -/
def Token.bare (token : Token) : Token := { token with location := .start }

namespace Token

variable (token : Token)

@[simp] theorem kind_bare : token.bare.kind = token.kind := rfl
@[simp] theorem text_bare : token.bare.text = token.text := rfl
@[simp] theorem value_bare : token.bare.value = token.value := rfl
@[simp] theorem index_bare : token.bare.index = token.index := rfl
@[simp] theorem location_bare : token.bare.location = .start := rfl
@[simp] theorem shown_bare : token.bare.shown = token.shown := rfl

end Token

/-- The tokens are numbered from zero on. -/
def Numbered (tokens : List Token) : Prop :=
  ∀ (i : Nat) (token : Token), tokens[i]? = some token → token.index = i

theorem Numbered.of_append {first rest : List Token} (h : Numbered (first ++ rest)) :
    Numbered first := by
  intro i token htoken
  refine h i token ?_
  rw [List.getElem?_append_left (List.getElem?_eq_some_iff.mp htoken).1, htoken]

/-- **Numbered tokens with the same words differ in their locations only.** -/
theorem map_bare_eq {tokens tokens' : List Token} (h : Numbered tokens) (h' : Numbered tokens')
    (hwords : tokens.map Token.word = tokens'.map Token.word) :
    tokens.map Token.bare = tokens'.map Token.bare := by
  refine List.ext_getElem? fun i => ?_
  have hword := congrArg (·[i]?) hwords
  simp only [List.getElem?_map] at hword ⊢
  cases hi : tokens[i]? with
  | none =>
    rw [hi] at hword
    rw [Option.map_eq_none_iff.mp hword.symm]
  | some token =>
    cases hi' : tokens'[i]? with
    | none =>
      rw [hi, hi'] at hword
      cases hword
    | some token' =>
      rw [hi, hi'] at hword
      have hindex : token.index = token'.index := (h i token hi).trans (h' i token' hi').symm
      obtain ⟨kind, location, index, value, text⟩ := token
      obtain ⟨kind', location', index', value', text'⟩ := token'
      cases hword
      cases hindex
      rfl

/-- **A run over a text numbers its tokens.** -/
theorem Lexer.run_numbered (source : List Char) : Numbered (ofChars source).run.tokens := by
  intro i token htoken
  obtain ⟨hi, rfl⟩ := List.getElem?_eq_some_iff.mp htoken
  have htokens := (List.take_append_drop i (ofChars source).run.tokens).symm
  rw [List.drop_eq_getElem_cons hi] at htokens
  obtain ⟨pieces, here, gap, next, hscans, hmap, hread⟩ := scans_of_run rfl htokens
  have hlength := congrArg List.length hmap
  rw [List.length_map, List.length_take_of_le (Nat.le_of_lt hi)] at hlength
  rw [hread.token_index, hscans.count, hlength]
  exact Nat.zero_add i

/-! ## Nodes -/

/-- **A block without locations.** -/
def Block.bare : Block → Block
  | .expression token => .expression token.bare
  | .reference token target => .reference token.bare target
  | .call _ callee => .call .start callee
  | .cast _ types => .cast .start (types.map Token.bare)
  | .scope bracket _ children => .scope bracket .start children
  | .branch _ condition body next index => .branch .start condition body next index
  | .alternative _ body index => .alternative .start body index
  | .loop _ condition body index => .loop .start condition body index
  | .assembly token => .assembly token.bare

def Function.bare (f : Function) : Function :=
  { f with requires := f.requires.map Token.bare, returns := f.returns.map Token.bare }

def DefinitionBody.bare : DefinitionBody → DefinitionBody
  | .function f => .function f.bare
  | .memory capacity => .memory capacity.bare
  | .string literal => .string literal.bare

/-- **A definition without locations.** -/
def Definition.bare (d : Definition) : Definition :=
  ⟨.start, d.ident.bare, d.place.bare, d.used, d.index, d.body.bare⟩

@[simp] theorem Definition.isFunction_bare (d : Definition) : d.bare.isFunction = d.isFunction := by
  obtain ⟨_, _, _, _, _, body⟩ := d
  cases body <;> rfl

theorem Block.bare_joined (alternative : BlockId) (block : Block) :
    joined alternative block.bare = (joined alternative block).bare := by
  cases block <;> rfl

theorem Block.bare_filled (children : List BlockId) (block : Block) :
    filled children block.bare = (filled children block).bare := by
  cases block <;> rfl

/-! ## Stores -/

/-- **A store without locations**, with room for more nodes. -/
def Store.bare (up : Nat) (store : Store) : Store :=
  ⟨store.maxNodes + up, store.blocks.map Block.bare, store.defs.map Definition.bare,
    store.generation⟩

namespace Store

variable (up : Nat) (store : Store)

@[simp] theorem maxNodes_bare : (store.bare up).maxNodes = store.maxNodes + up := rfl

@[simp] theorem size_bare : (store.bare up).size = store.size := by simp [size, bare]

@[simp] theorem nextBlock_bare : (store.bare up).nextBlock = store.nextBlock := by
  simp [nextBlock, bare]

@[simp] theorem nextDef_bare : (store.bare up).nextDef = store.nextDef := by simp [nextDef, bare]

theorem block?_bare (id : BlockId) : (store.bare up).block? id = (store.block? id).map Block.bare := by
  simp only [block?, bare, Array.getElem?_map]
  split <;> rfl

theorem def?_bare (id : DefId) : (store.bare up).def? id = (store.def? id).map Definition.bare := by
  simp only [def?, bare, Array.getElem?_map]
  split <;> rfl

theorem bare_withBlock (block : Block) :
    (store.withBlock block).bare up = (store.bare up).withBlock block.bare := by
  simp [bare, withBlock]

theorem bare_withDef (d : Definition) :
    (store.withDef d).bare up = (store.bare up).withDef d.bare := by
  simp [bare, withDef]

theorem bare_modifyBlock {f : Block → Block} (hf : ∀ block, f block.bare = (f block).bare)
    (id : BlockId) : (store.modifyBlock id f).bare up = (store.bare up).modifyBlock id f := by
  rw [modifyBlock, modifyBlock, show (store.bare up).generation = store.generation from rfl]
  split_ifs
  · simp only [bare, map_modify hf]
  · rfl

theorem bare_modifyDef {f : Definition → Definition} (hf : ∀ d, f d.bare = (f d).bare)
    (id : DefId) : (store.modifyDef id f).bare up = (store.bare up).modifyDef id f := by
  rw [modifyDef, modifyDef, show (store.bare up).generation = store.generation from rfl]
  split_ifs
  · simp only [bare, map_modify hf]
  · rfl

end Store

theorem namesFunction_bare (up : Nat) (store : Store) (id : BlockId) :
    namesFunction (store.bare up) id = namesFunction store id := by
  rw [namesFunction, namesFunction, Store.block?_bare]
  cases store.block? id with
  | none => rfl
  | some block =>
    cases block with
    | reference token target =>
      simp only [Option.map_some, Block.bare, Store.def?_bare, Option.map_map]
      congr 2
      funext d
      exact d.isFunction_bare
    | _ => rfl

/-- **What parsing has built up, without locations.** -/
def Workspace.bare (up : Nat) (w : Workspace) : Workspace := { w with store := w.store.bare up }

section Workspace

variable (up : Nat) (w : Workspace)

@[simp] theorem Workspace.store_bare : (w.bare up).store = w.store.bare up := rfl
@[simp] theorem Workspace.symbols_bare : (w.bare up).symbols = w.symbols := rfl

theorem Workspace.bare_markUsed (target : DefId) :
    (w.bare up).markUsed target = (w.markUsed target).bare up := by
  simp only [markUsed, bare]
  rw [Store.bare_modifyDef]
  exact fun _ => rfl

end Workspace

/-! ## States -/

def Purpose.bare : Purpose → Purpose
  | .plain => .plain
  | .branchCondition keyword index => .branchCondition keyword.bare index
  | .branchBody keyword index condition => .branchBody keyword.bare index condition
  | .alternative keyword index branch => .alternative keyword.bare index branch
  | .loopCondition keyword index => .loopCondition keyword.bare index
  | .loopBody keyword index condition => .loopBody keyword.bare index condition

def Chain.bare (chain : Chain) : Chain := { chain with location := .start }

def Interior.bare (interior : Interior) : Interior :=
  { interior with opener := interior.opener.bare, chains := interior.chains.map Chain.bare }

/-- **Open scopes without locations.** -/
def OpenScope.bare : OpenScope → OpenScope
  | .function interior block => .function interior.bare block
  | .nested interior purpose outer => .nested interior.bare purpose.bare outer.bare

namespace OpenScope

variable (scope : OpenScope)

@[simp] theorem interior_bare : scope.bare.interior = scope.interior.bare := by cases scope <;> rfl

theorem bare_push (id : BlockId) : (scope.push id).bare = scope.bare.push id := by
  cases scope with
  | function interior block | nested interior purpose outer =>
    obtain ⟨bracket, opener, depth, blocks, chains⟩ := interior
    cases chains <;> rfl

theorem bare_openChain (chain : Chain) :
    (scope.openChain chain).bare = scope.bare.openChain chain.bare := by cases scope <;> rfl

theorem bare_modify {f g : Interior → Interior} (h : ∀ i : Interior, g i.bare = (f i).bare) :
    (scope.modify f).bare = scope.bare.modify g := by
  cases scope <;> simp [modify, bare, h]

end OpenScope

def Header.bare (header : Header) : Header :=
  ⟨header.keyword.bare, header.ident.bare, header.place.bare⟩

def Signature.bare (signature : Signature) : Signature :=
  ⟨signature.requires.map Token.bare, signature.returns.map Token.bare⟩

theorem Signature.bare_add (signature : Signature) (clause : Clause) (types : List Token) :
    (signature.add clause types).bare = signature.bare.add clause (types.map Token.bare) := by
  cases clause <;> simp [add, bare]

/-- **A state without locations.** -/
def ParseState.bare : ParseState → ParseState
  | .definition => .definition
  | .sectionName => .sectionName
  | .definitionKeyword place => .definitionKeyword place.bare
  | .definitionName family keyword place => .definitionName family keyword.bare place.bare
  | .afterName header => .afterName header.bare
  | .signature header before parens => .signature header.bare before.bare parens
  | .clauseTypes header before parens clause keyword types =>
    .clauseTypes header.bare before.bare parens clause keyword.bare (types.map Token.bare)
  | .capacity header => .capacity header.bare
  | .literal header => .literal header.bare
  | .block scope => .block scope.bare
  | .castTypes scope keyword types => .castTypes scope.bare keyword.bare (types.map Token.bare)
  | .assemblyLine scope keyword => .assemblyLine scope.bare keyword.bare
  | .opening scope purpose => .opening scope.bare purpose.bare
  | .afterBranch scope branch => .afterBranch scope.bare branch

/-! ## Errors -/

/-- A cause without the location that it names. -/
def ParseFault.bare : ParseFault → ParseFault
  | .mismatchedClose found opener _ => .mismatchedClose found opener .start
  | fault => fault

theorem Purpose.bare_missing (purpose : Purpose) (found : String) :
    (purpose.missing found).bare = purpose.bare.missing found := by
  cases purpose <;> rfl

theorem ParseFault.kind_bare (fault : ParseFault) : fault.bare.kind = fault.kind := by
  cases fault <;> rfl

/-- **An error without its location.** -/
def ParseError.bare (e : ParseError) : ParseError := ⟨e.cause.bare, e.location.map fun _ => .start⟩

end StackCompiler
