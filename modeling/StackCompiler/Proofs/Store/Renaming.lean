import StackCompiler.Proofs.Grammar.Steps

/-!
# Renamed handles

Nodes know each other by their handles only. So the nodes of one store can be put behind those of
another one, if every handle is renamed to the number and generation that its node gets there.

* `Renaming`: new handles for old ones.
* `Block.rename`, `Definition.rename`, `ParseState.rename`: the same with renamed handles.
* **`Store.graft`**, `Workspace.graft`: a store behind the nodes of another one.
* `block?_graft`, `graft_modifyBlock`: looking up and changing nodes there.
-/

namespace StackCompiler

/-- **New handles for old ones.** -/
structure Renaming where
  block : BlockId → BlockId
  definition : DefId → DefId

/-! ## Nodes -/

/-- **A block with renamed handles.** -/
def Block.rename (ρ : Renaming) : Block → Block
  | .expression token => .expression token
  | .reference token target => .reference token (ρ.definition target)
  | .call location callee => .call location (ρ.block callee)
  | .cast location types => .cast location types
  | .scope bracket location children => .scope bracket location (children.map ρ.block)
  | .branch location condition body next index =>
    .branch location (ρ.block condition) (ρ.block body) (next.map ρ.block) index
  | .alternative location body index => .alternative location (ρ.block body) index
  | .loop location condition body index =>
    .loop location (ρ.block condition) (ρ.block body) index
  | .assembly token => .assembly token

def Function.rename (ρ : Renaming) (f : Function) : Function := { f with body := ρ.block f.body }

def DefinitionBody.rename (ρ : Renaming) : DefinitionBody → DefinitionBody
  | .function f => .function (f.rename ρ)
  | .memory capacity => .memory capacity
  | .string literal => .string literal

/-- **A definition with renamed handles.** -/
def Definition.rename (ρ : Renaming) (d : Definition) : Definition :=
  { d with body := d.body.rename ρ }

section Nodes

variable (ρ : Renaming)

@[simp] theorem Block.name_rename (block : Block) : (block.rename ρ).name = block.name := by
  cases block <;> rfl

@[simp] theorem Block.location_rename (block : Block) :
    (block.rename ρ).location = block.location := by
  cases block <;> rfl

@[simp] theorem Block.children_rename (block : Block) :
    (block.rename ρ).children = block.children.map ρ.block := by
  cases block <;> rfl

@[simp] theorem Definition.isFunction_rename (d : Definition) :
    (d.rename ρ).isFunction = d.isFunction := by
  obtain ⟨_, _, _, _, _, body⟩ := d
  cases body <;> rfl

theorem Block.joined_rename (alternative : BlockId) (block : Block) :
    joined (ρ.block alternative) (block.rename ρ) = (joined alternative block).rename ρ := by
  cases block <;> rfl

theorem Block.filled_rename (children : List BlockId) (block : Block) :
    filled (children.map ρ.block) (block.rename ρ) = (filled children block).rename ρ := by
  cases block <;> rfl

end Nodes

/-! ## Stores -/

/-- A change behind the first part of an array is a change of the second part. -/
theorem modify_append_right {α : Type} (xs ys : Array α) (i : Nat) (f : α → α) :
    (xs ++ ys).modify (xs.size + i) f = xs ++ ys.modify i f := by
  refine Array.ext_getElem? fun j => ?_
  by_cases hj : j < xs.size
  · have hne : xs.size + i ≠ j := by omega
    rw [Array.getElem?_modify, if_neg hne, Array.getElem?_append_left hj,
      Array.getElem?_append_left hj]
  · rw [Array.getElem?_modify, Array.getElem?_append_right (by omega),
      Array.getElem?_append_right (by omega), Array.getElem?_modify]
    by_cases hij : xs.size + i = j
    · rw [if_pos hij, if_pos (by omega)]
    · rw [if_neg hij, if_neg (by omega)]

namespace Store

/-- **The handles of a store that is put behind another one.** -/
def shift (base : Store) : Renaming where
  block id := ⟨base.blocks.size + id.index, base.generation + id.generation⟩
  definition id := ⟨base.defs.size + id.index, base.generation + id.generation⟩

/-- **A store behind the nodes of another one**, which sets the limit. -/
def graft (base store : Store) : Store :=
  ⟨base.maxNodes, base.blocks ++ store.blocks.map (Block.rename base.shift),
    base.defs ++ store.defs.map (Definition.rename base.shift), base.generation + store.generation⟩

section Graft

variable (base store : Store)

@[simp] theorem maxNodes_graft : (base.graft store).maxNodes = base.maxNodes := rfl

@[simp] theorem size_graft : (base.graft store).size = base.size + store.size := by
  simp only [size, graft, Array.size_append, Array.size_map]
  omega

@[simp] theorem nextBlock_graft :
    (base.graft store).nextBlock = base.shift.block store.nextBlock := by
  simp [nextBlock, graft, shift]

@[simp] theorem nextDef_graft :
    (base.graft store).nextDef = base.shift.definition store.nextDef := by
  simp [nextDef, graft, shift]

/-- Putting an empty store behind a store changes nothing. -/
theorem graft_empty (limit : Nat) : base.graft (empty limit) = base := by
  simp [graft, empty]

theorem generation_shift_block (id : BlockId) :
    (base.shift.block id).generation = (base.graft store).generation ↔
      id.generation = store.generation :=
  UInt32.add_right_inj base.generation

theorem generation_shift_definition (id : DefId) :
    (base.shift.definition id).generation = (base.graft store).generation ↔
      id.generation = store.generation :=
  UInt32.add_right_inj base.generation

theorem block?_graft (id : BlockId) :
    (base.graft store).block? (base.shift.block id) =
      (store.block? id).map (Block.rename base.shift) := by
  rw [block?, block?]
  by_cases hid : id.generation = store.generation
  · rw [if_pos hid, if_pos ((base.generation_shift_block store id).mpr hid)]
    simp only [graft, shift]
    rw [Array.getElem?_append_right (Nat.le_add_right _ _), Nat.add_sub_cancel_left,
      Array.getElem?_map]
  · rw [if_neg hid, if_neg (mt (base.generation_shift_block store id).mp hid)]
    rfl

theorem def?_graft (id : DefId) :
    (base.graft store).def? (base.shift.definition id) =
      (store.def? id).map (Definition.rename base.shift) := by
  rw [def?, def?]
  by_cases hid : id.generation = store.generation
  · rw [if_pos hid, if_pos ((base.generation_shift_definition store id).mpr hid)]
    simp only [graft, shift]
    rw [Array.getElem?_append_right (Nat.le_add_right _ _), Nat.add_sub_cancel_left,
      Array.getElem?_map]
  · rw [if_neg hid, if_neg (mt (base.generation_shift_definition store id).mp hid)]
    rfl

theorem graft_withBlock (block : Block) :
    base.graft (store.withBlock block) =
      (base.graft store).withBlock (block.rename base.shift) := by
  simp only [graft, withBlock, Array.map_push, Array.append_push]

theorem graft_withDef (d : Definition) :
    base.graft (store.withDef d) = (base.graft store).withDef (d.rename base.shift) := by
  simp only [graft, withDef, Array.map_push, Array.append_push]

theorem graft_modifyBlock {f f' : Block → Block}
    (hf : ∀ block, f' (block.rename base.shift) = (f block).rename base.shift) (id : BlockId) :
    base.graft (store.modifyBlock id f) =
      (base.graft store).modifyBlock (base.shift.block id) f' := by
  rw [modifyBlock, modifyBlock]
  by_cases hid : id.generation = store.generation
  · have hindex : (base.shift.block id).index = base.blocks.size + id.index := rfl
    rw [if_pos hid, if_pos ((base.generation_shift_block store id).mpr hid), hindex]
    simp only [graft, modify_append_right, map_modify hf]
  · rw [if_neg hid, if_neg (mt (base.generation_shift_block store id).mp hid)]

theorem graft_modifyDef {f f' : Definition → Definition}
    (hf : ∀ d, f' (d.rename base.shift) = (f d).rename base.shift) (id : DefId) :
    base.graft (store.modifyDef id f) =
      (base.graft store).modifyDef (base.shift.definition id) f' := by
  rw [modifyDef, modifyDef]
  by_cases hid : id.generation = store.generation
  · have hindex : (base.shift.definition id).index = base.defs.size + id.index := rfl
    rw [if_pos hid, if_pos ((base.generation_shift_definition store id).mpr hid), hindex]
    simp only [graft, modify_append_right, map_modify hf]
  · rw [if_neg hid, if_neg (mt (base.generation_shift_definition store id).mp hid)]

end Graft

end Store

theorem namesFunction_graft (base store : Store) (id : BlockId) :
    namesFunction (base.graft store) (base.shift.block id) = namesFunction store id := by
  rw [namesFunction, namesFunction, Store.block?_graft]
  cases store.block? id with
  | none => rfl
  | some block =>
    cases block with
    | reference token target =>
      simp only [Option.map_some, Block.rename, Store.def?_graft, Option.map_map]
      congr 2
      funext d
      exact d.isFunction_rename base.shift
    | _ => rfl

/-! ## Workspaces -/

/-- Names with renamed handles. -/
def renameSymbols (ρ : Renaming) (symbols : List (String × DefId)) : List (String × DefId) :=
  symbols.map fun p => (p.1, ρ.definition p.2)

theorem lookup_renameSymbols (ρ : Renaming) (symbols : List (String × DefId)) (name : String) :
    (renameSymbols ρ symbols).lookup name = (symbols.lookup name).map ρ.definition := by
  induction symbols with
  | nil => rfl
  | cons p rest ih =>
    rw [renameSymbols, List.map_cons, List.lookup_cons, List.lookup_cons]
    split
    · rfl
    · exact ih

/-- **What parsing has built up, behind the nodes of a store.** -/
def Workspace.graft (base : Store) (w : Workspace) : Workspace :=
  ⟨base.graft w.store, renameSymbols base.shift w.symbols, w.nextIndex⟩

section Workspace

variable (base : Store) (w : Workspace)

@[simp] theorem Workspace.store_graft : (w.graft base).store = base.graft w.store := rfl

@[simp] theorem Workspace.symbols_graft :
    (w.graft base).symbols = renameSymbols base.shift w.symbols := rfl

theorem Workspace.graft_markUsed (target : DefId) :
    (w.graft base).markUsed (base.shift.definition target) = (w.markUsed target).graft base := by
  have hstore : base.graft (w.store.modifyDef target ({ · with used := true })) =
      (base.graft w.store).modifyDef (base.shift.definition target) ({ · with used := true }) :=
    base.graft_modifyDef w.store (f := ({ · with used := true })) (fun _ => rfl) target
  simp only [markUsed, graft, hstore]

end Workspace

/-! ## States -/

section States

variable (ρ : Renaming)

def Purpose.rename : Purpose → Purpose
  | .plain => .plain
  | .branchCondition keyword index => .branchCondition keyword index
  | .branchBody keyword index condition => .branchBody keyword index (ρ.block condition)
  | .alternative keyword index branch => .alternative keyword index (ρ.block branch)
  | .loopCondition keyword index => .loopCondition keyword index
  | .loopBody keyword index condition => .loopBody keyword index (ρ.block condition)

def Chain.rename (chain : Chain) : Chain :=
  { chain with branch := ρ.block chain.branch, blocks := chain.blocks.map ρ.block }

def Interior.rename (interior : Interior) : Interior :=
  { interior with
    blocks := interior.blocks.map ρ.block, chains := interior.chains.map (Chain.rename ρ) }

/-- **Open scopes with renamed handles.** -/
def OpenScope.rename : OpenScope → OpenScope
  | .function interior block => .function (interior.rename ρ) (ρ.block block)
  | .nested interior purpose outer =>
    .nested (interior.rename ρ) (purpose.rename ρ) outer.rename

/-- **A state with renamed handles.** -/
def ParseState.rename : ParseState → ParseState
  | .block scope => .block (scope.rename ρ)
  | .castTypes scope keyword types => .castTypes (scope.rename ρ) keyword types
  | .assemblyLine scope keyword => .assemblyLine (scope.rename ρ) keyword
  | .opening scope purpose => .opening (scope.rename ρ) (purpose.rename ρ)
  | .afterBranch scope branch => .afterBranch (scope.rename ρ) (ρ.block branch)
  | state => state

theorem Purpose.missing_rename (purpose : Purpose) (found : String) :
    (purpose.rename ρ).missing found = purpose.missing found := by
  cases purpose <;> rfl

namespace OpenScope

variable (scope : OpenScope)

@[simp] theorem interior_rename : (scope.rename ρ).interior = scope.interior.rename ρ := by
  cases scope <;> rfl

theorem rename_push (id : BlockId) :
    (scope.push id).rename ρ = (scope.rename ρ).push (ρ.block id) := by
  cases scope with
  | function interior block | nested interior purpose outer =>
    obtain ⟨bracket, opener, depth, blocks, chains⟩ := interior
    cases chains <;> rfl

theorem rename_openChain (chain : Chain) :
    (scope.openChain chain).rename ρ = (scope.rename ρ).openChain (chain.rename ρ) := by
  cases scope <;> rfl

theorem rename_modify {f f' : Interior → Interior}
    (h : ∀ i : Interior, f' (i.rename ρ) = (f i).rename ρ) :
    (scope.modify f).rename ρ = (scope.rename ρ).modify f' := by
  cases scope <;> simp [modify, rename, h]

end OpenScope

end States

end StackCompiler
