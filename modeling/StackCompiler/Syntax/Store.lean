import StackCompiler.Syntax.Node

/-!
# Storage of nodes

A store keeps blocks and definitions, numbered in the order in which they were added, up to a limit
on their total. Clearing a store opens a new generation: a handle resolves only in the generation
in which it was given out. Generations are counted modulo two to the power of thirty-two.

* `Store.addBlock`, `Store.addDef`: a new node and its handle.
* `Store.block?`, `Store.def?`: the node of a handle.
* `Store.modifyBlock`, `Store.modifyDef`: a change of a node.
* `Store.clear`: the next generation.
-/

namespace StackCompiler

/-- **Nodes of the units of one compilation.** -/
structure Store where
  /-- The largest number of nodes. -/
  maxNodes : Nat
  /-- The blocks in the order of their numbers. -/
  blocks : Array Block
  /-- The definitions in the order of their numbers. -/
  defs : Array Definition
  /-- How often the store was cleared. -/
  generation : UInt32
  deriving DecidableEq, Repr

/-- The refusal of a node past the limit. -/
structure NodeLimit where
  /-- The limit. -/
  limit : Nat
  /-- The number that the refused node would have had. -/
  attempted : Nat
  deriving DecidableEq, Repr

/-- The refusal in words. -/
def NodeLimit.message (e : NodeLimit) : String :=
  "AST node limit of " ++ toString e.limit ++ " exceeded (attempted node " ++
    toString e.attempted ++ ")"

namespace Store

/-- The limit of a store for which none is chosen. -/
def defaultMaxNodes : Nat := Nat.pow 2 20

/-- A store without nodes. -/
def empty (maxNodes : Nat) : Store := ⟨maxNodes, #[], #[], 0⟩

/-- How many nodes the store holds. -/
def size (store : Store) : Nat := store.blocks.size + store.defs.size

/-- Refuses when the store is full. -/
def reserve (store : Store) : Except NodeLimit Unit :=
  if store.maxNodes ≤ store.size then .error ⟨store.maxNodes, store.size + 1⟩ else .ok ()

/-- Puts a block behind the others, whether the store is full or not. -/
def pushBlock (store : Store) (block : Block) : BlockId × Store :=
  (⟨store.blocks.size, store.generation⟩, { store with blocks := store.blocks.push block })

/-- Puts a definition behind the others, whether the store is full or not. -/
def pushDef (store : Store) (d : Definition) : DefId × Store :=
  (⟨store.defs.size, store.generation⟩, { store with defs := store.defs.push d })

/-- **Adds a block.** -/
def addBlock (store : Store) (block : Block) : Except NodeLimit (BlockId × Store) := do
  store.reserve
  return store.pushBlock block

/-- **Adds a definition.** -/
def addDef (store : Store) (d : Definition) : Except NodeLimit (DefId × Store) := do
  store.reserve
  return store.pushDef d

/-- **The block of a handle**, if the handle is of this generation. -/
def block? (store : Store) (id : BlockId) : Option Block :=
  if id.generation = store.generation then store.blocks[id.index]? else none

/-- **The definition of a handle**, if the handle is of this generation. -/
def def? (store : Store) (id : DefId) : Option Definition :=
  if id.generation = store.generation then store.defs[id.index]? else none

/-- **Changes the block of a handle**; a handle that does not resolve changes nothing. -/
def modifyBlock (store : Store) (id : BlockId) (f : Block → Block) : Store :=
  if id.generation = store.generation then { store with blocks := store.blocks.modify id.index f }
  else store

/-- **Changes the definition of a handle**; a handle that does not resolve changes nothing. -/
def modifyDef (store : Store) (id : DefId) (f : Definition → Definition) : Store :=
  if id.generation = store.generation then { store with defs := store.defs.modify id.index f }
  else store

/-- Every definition with its handle, in order. -/
def allDefs (store : Store) : List (DefId × Definition) :=
  store.defs.toList.zipIdx.map fun (d, index) => (⟨index, store.generation⟩, d)

/-- **Drops every node and opens the next generation.** -/
def clear (store : Store) : Store := ⟨store.maxNodes, #[], #[], store.generation + 1⟩

end Store

end StackCompiler
