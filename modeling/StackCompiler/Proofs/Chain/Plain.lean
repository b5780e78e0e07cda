import StackCompiler.Proofs.Layout.Bare

/-!
# Locations and numbers of tokens

A text that is written in another way has its tokens at other places and under other numbers. What
parsing builds from it is compared without both. Everything else is kept: handles, the numbers of
branches, loops and definitions, and the limit of nodes.

* `Token.plain`, `Block.plain`, `Definition.plain`: without locations and numbers of tokens.
* `Store.plain`, `Workspace.plain`: stores and workspaces.
-/

namespace StackCompiler

/-! ## Nodes -/

/-- **A token without its location and number.** -/
def Token.plain (token : Token) : Token := { token with location := .start, index := 0 }

/-- Tokens with the same word differ in their locations and numbers only. -/
theorem Token.plain_eq_iff {token token' : Token} :
    token.plain = token'.plain ↔ token.word = token'.word := by
  obtain ⟨kind, location, index, value, text⟩ := token
  obtain ⟨kind', location', index', value', text'⟩ := token'
  simp [Token.plain, Token.word]

/-- **A block without the locations and numbers of its tokens.** -/
def Block.plain : Block → Block
  | .expression token => .expression token.plain
  | .reference token target => .reference token.plain target
  | .call _ callee => .call .start callee
  | .cast _ types => .cast .start (types.map Token.plain)
  | .scope bracket _ children => .scope bracket .start children
  | .branch _ condition body next index => .branch .start condition body next index
  | .alternative _ body index => .alternative .start body index
  | .loop _ condition body index => .loop .start condition body index
  | .assembly token => .assembly token.plain

def Function.plain (f : Function) : Function :=
  { f with requires := f.requires.map Token.plain, returns := f.returns.map Token.plain }

def DefinitionBody.plain : DefinitionBody → DefinitionBody
  | .function f => .function f.plain
  | .memory capacity => .memory capacity.plain
  | .string literal => .string literal.plain

/-- **A definition without the locations and numbers of its tokens.** -/
def Definition.plain (d : Definition) : Definition :=
  ⟨.start, d.ident.plain, d.place.plain, d.used, d.index, d.body.plain⟩

@[simp] theorem Definition.isFunction_plain (d : Definition) :
    d.plain.isFunction = d.isFunction := by
  obtain ⟨_, _, _, _, _, body⟩ := d
  cases body <;> rfl

theorem Block.plain_joined (alternative : BlockId) (block : Block) :
    joined alternative block.plain = (joined alternative block).plain := by
  cases block <;> rfl

theorem Block.plain_filled (children : List BlockId) (block : Block) :
    filled children block.plain = (filled children block).plain := by
  cases block <;> rfl

/-! ## Stores -/

/-- **A store without the locations and numbers of tokens.** -/
def Store.plain (store : Store) : Store :=
  { store with blocks := store.blocks.map Block.plain, defs := store.defs.map Definition.plain }

namespace Store

variable (store : Store)

@[simp] theorem maxNodes_plain : store.plain.maxNodes = store.maxNodes := rfl

@[simp] theorem size_plain : store.plain.size = store.size := by simp [size, plain]

@[simp] theorem nextBlock_plain : store.plain.nextBlock = store.nextBlock := by
  simp [nextBlock, plain]

@[simp] theorem nextDef_plain : store.plain.nextDef = store.nextDef := by simp [nextDef, plain]

theorem block?_plain (id : BlockId) :
    store.plain.block? id = (store.block? id).map Block.plain := by
  simp only [block?, plain, Array.getElem?_map]
  split <;> rfl

theorem def?_plain (id : DefId) : store.plain.def? id = (store.def? id).map Definition.plain := by
  simp only [def?, plain, Array.getElem?_map]
  split <;> rfl

theorem plain_withBlock (block : Block) :
    (store.withBlock block).plain = store.plain.withBlock block.plain := by
  simp [plain, withBlock]

theorem plain_withDef (d : Definition) :
    (store.withDef d).plain = store.plain.withDef d.plain := by
  simp [plain, withDef]

theorem plain_modifyBlock {f : Block → Block} (hf : ∀ block, f block.plain = (f block).plain)
    (id : BlockId) : (store.modifyBlock id f).plain = store.plain.modifyBlock id f := by
  rw [modifyBlock, modifyBlock, show store.plain.generation = store.generation from rfl]
  split_ifs
  · simp only [plain, map_modify hf]
  · rfl

theorem plain_modifyDef {f : Definition → Definition} (hf : ∀ d, f d.plain = (f d).plain)
    (id : DefId) : (store.modifyDef id f).plain = store.plain.modifyDef id f := by
  rw [modifyDef, modifyDef, show store.plain.generation = store.generation from rfl]
  split_ifs
  · simp only [plain, map_modify hf]
  · rfl

end Store

theorem namesFunction_plain (store : Store) (id : BlockId) :
    namesFunction store.plain id = namesFunction store id := by
  rw [namesFunction, namesFunction, Store.block?_plain]
  cases store.block? id with
  | none => rfl
  | some block =>
    cases block with
    | reference token target =>
      simp only [Option.map_some, Block.plain, Store.def?_plain, Option.map_map]
      congr 2
      funext d
      exact d.isFunction_plain
    | _ => rfl

/-! ## Workspaces -/

/-- **A workspace without the locations and numbers of tokens.** -/
def Workspace.plain (w : Workspace) : Workspace := { w with store := w.store.plain }

section Workspace

variable (w : Workspace)

@[simp] theorem Workspace.store_plain : w.plain.store = w.store.plain := rfl

theorem Workspace.plain_markUsed (target : DefId) :
    w.plain.markUsed target = (w.markUsed target).plain := by
  simp only [markUsed, plain]
  rw [Store.plain_modifyDef]
  exact fun _ => rfl

end Workspace

end StackCompiler
