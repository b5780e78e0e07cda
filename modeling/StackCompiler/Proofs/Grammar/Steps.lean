import Mathlib.Tactic.SplitIfs
import StackCompiler.Proofs.Grammar.Build

/-!
# Basic steps of parsing

What the basic steps do to the workspace when they succeed, and what the store then holds.

* `bind_eq_ok`: a step and those after it.
* **`addBlock_eq_ok`**, **`define_eq_ok`**, `addReference_eq_ok`: nodes that are added.
* `joined`, `filled`: the two changes that are made to blocks.
-/

namespace StackCompiler

/-! ## Sequences of steps -/

theorem bind_eq_ok {α β : Type} {m : ParseM α} {f : α → ParseM β} {w w'' : Workspace} {b : β} :
    (m >>= f) w = .ok b w'' ↔ ∃ a w', m w = .ok a w' ∧ f a w' = .ok b w'' := by
  simp only [bind, EStateM.bind]
  cases m w with
  | ok a w' =>
    refine ⟨fun h => ⟨a, w', rfl, h⟩, ?_⟩
    rintro ⟨_, _, h₁, h₂⟩
    cases h₁
    exact h₂
  | error e w' =>
    refine ⟨by simp, ?_⟩
    rintro ⟨_, _, h₁, -⟩
    cases h₁

section Bind

variable {α β : Type} {m : ParseM α} {w w' : Workspace}

theorem bind_of_eq_ok {a : α} (h : m w = .ok a w') (k : α → ParseM β) :
    (m >>= k) w = k a w' := by
  change EStateM.bind m k w = _
  rw [EStateM.bind, h]

theorem bind_of_eq_error {e : ParseError} (h : m w = .error e w') (k : α → ParseM β) :
    (m >>= k) w = .error e w' := by
  change EStateM.bind m k w = _
  rw [EStateM.bind, h]

end Bind

theorem pure_eq_ok {α : Type} {a b : α} {w w' : Workspace} :
    (pure a : ParseM α) w = .ok b w' ↔ a = b ∧ w = w' := by
  change EStateM.Result.ok a w = .ok b w' ↔ _
  simp

theorem failAt_ne_ok {α : Type} {token : Token} {cause : ParseFault} {a : α} {w w' : Workspace} :
    failAt token cause w ≠ .ok a w' := fun h => by cases h

theorem reject_ne_ok {α : Type} {token : Token} {expected : Expectation} {a : α}
    {w w' : Workspace} : reject token expected w ≠ .ok a w' := by
  unfold reject
  split_ifs <;> exact failAt_ne_ok

theorem get_bind {α : Type} (f : Workspace → ParseM α) (w : Workspace) : (get >>= f) w = f w w := rfl

theorem takeIndex_eq (w : Workspace) :
    takeIndex w = .ok w.nextIndex { w with nextIndex := w.nextIndex + 1 } := rfl

/-! ## The store -/

/-- A change of one entry, before or after all entries are mapped. -/
theorem map_modify {α β : Type} {f : α → α} {f' : β → β} {g : α → β} (h : ∀ a, f' (g a) = g (f a))
    (xs : Array α) (i : Nat) : (xs.modify i f).map g = (xs.map g).modify i f' := by
  refine Array.ext_getElem? fun j => ?_
  simp only [Array.getElem?_map, Array.getElem?_modify]
  by_cases hij : i = j
  · rw [if_pos hij, if_pos hij, Option.map_map, Option.map_map]
    exact congrArg (Option.map · xs[j]?) (funext fun a => (h a).symm)
  · rw [if_neg hij, if_neg hij]

namespace Store

/-- The handle that the next block gets. -/
def nextBlock (store : Store) : BlockId := ⟨store.blocks.size, store.generation⟩

/-- The handle that the next definition gets. -/
def nextDef (store : Store) : DefId := ⟨store.defs.size, store.generation⟩

/-- The store with one more block. -/
def withBlock (store : Store) (block : Block) : Store :=
  { store with blocks := store.blocks.push block }

/-- The store with one more definition. -/
def withDef (store : Store) (d : Definition) : Store := { store with defs := store.defs.push d }

theorem block?_eq_some {store : Store} {id : BlockId} {block : Block} :
    store.block? id = some block ↔
      id.generation = store.generation ∧ store.blocks[id.index]? = some block := by
  rw [block?]
  split_ifs with h <;> simp [h]

theorem block?_withBlock (store : Store) (block : Block) :
    (store.withBlock block).block? store.nextBlock = some block := by
  simp [block?, withBlock, nextBlock]

theorem block?_modifyBlock (store : Store) (target : BlockId) (f : Block → Block) (id : BlockId) :
    (store.modifyBlock target f).block? id =
      if target = id then (store.block? id).map f else store.block? id := by
  obtain ⟨i, g⟩ := target
  obtain ⟨j, g'⟩ := id
  simp only [modifyBlock, block?, BlockId.mk.injEq]
  by_cases hg : g = store.generation
  · by_cases hg' : g' = store.generation
    · subst hg hg'
      simp [Array.getElem?_modify]
    · simp [hg, hg', Ne.symm hg']
  · by_cases hg' : g' = store.generation
    · subst hg'
      simp [hg]
    · simp [hg, hg']

theorem def?_eq_some {store : Store} {id : DefId} {d : Definition} :
    store.def? id = some d ↔
      id.generation = store.generation ∧ store.defs[id.index]? = some d := by
  rw [def?]
  split_ifs with h <;> simp [h]

theorem def?_withDef (store : Store) (d : Definition) :
    (store.withDef d).def? store.nextDef = some d := by
  simp [def?, withDef, nextDef]

theorem def?_withDef_of_lt (store : Store) (d : Definition) {id : DefId}
    (h : id.index < store.defs.size) : (store.withDef d).def? id = store.def? id := by
  simp [def?, withDef, Array.getElem?_push, Nat.ne_of_lt h]

theorem index_lt_of_def? {store : Store} {id : DefId} {d : Definition}
    (h : store.def? id = some d) : id.index < store.defs.size :=
  (Array.getElem?_eq_some_iff.mp (def?_eq_some.mp h).2).1

theorem def?_modifyDef (store : Store) (target : DefId) (f : Definition → Definition)
    (id : DefId) :
    (store.modifyDef target f).def? id =
      if target = id then (store.def? id).map f else store.def? id := by
  obtain ⟨i, g⟩ := target
  obtain ⟨j, g'⟩ := id
  simp only [modifyDef, def?, DefId.mk.injEq]
  by_cases hg : g = store.generation
  · by_cases hg' : g' = store.generation
    · subst hg hg'
      simp [Array.getElem?_modify]
    · simp [hg, hg', Ne.symm hg']
  · by_cases hg' : g' = store.generation
    · subst hg'
      simp [hg]
    · simp [hg, hg']

theorem def?_modifyBlock (store : Store) (target : BlockId) (f : Block → Block) :
    (store.modifyBlock target f).def? = store.def? := by
  funext id
  rw [def?, def?, modifyBlock]
  split_ifs <;> rfl

section Modify

variable (store : Store)

/-- **A change of a definition leaves the blocks alone.** -/
theorem blocks_modifyDef (target : DefId) (f : Definition → Definition) :
    (store.modifyDef target f).blocks = store.blocks := by
  rw [modifyDef]
  split_ifs <;> rfl

theorem generation_modifyDef (target : DefId) (f : Definition → Definition) :
    (store.modifyDef target f).generation = store.generation := by
  rw [modifyDef]
  split_ifs <;> rfl

theorem block?_modifyDef (target : DefId) (f : Definition → Definition) :
    (store.modifyDef target f).block? = store.block? := by
  funext id
  rw [block?, block?, blocks_modifyDef, generation_modifyDef]

theorem generation_modifyBlock (target : BlockId) (f : Block → Block) :
    (store.modifyBlock target f).generation = store.generation := by
  rw [modifyBlock]
  split_ifs <;> rfl

theorem size_blocks_modifyBlock (target : BlockId) (f : Block → Block) :
    (store.modifyBlock target f).blocks.size = store.blocks.size := by
  rw [modifyBlock]
  split_ifs <;> simp

end Modify

section Size

variable (store : Store)

theorem size_withBlock (block : Block) : (store.withBlock block).size = store.size + 1 := by
  simp only [size, withBlock, Array.size_push]
  omega

theorem size_withDef (d : Definition) : (store.withDef d).size = store.size + 1 := by
  simp only [size, withDef, Array.size_push]
  omega

theorem size_modifyBlock (target : BlockId) (f : Block → Block) :
    (store.modifyBlock target f).size = store.size := by
  rw [modifyBlock]
  split_ifs <;> simp [size]

theorem size_modifyDef (target : DefId) (f : Definition → Definition) :
    (store.modifyDef target f).size = store.size := by
  rw [modifyDef]
  split_ifs <;> simp [size]

theorem maxNodes_modifyBlock (target : BlockId) (f : Block → Block) :
    (store.modifyBlock target f).maxNodes = store.maxNodes := by
  rw [modifyBlock]
  split_ifs <;> rfl

theorem maxNodes_modifyDef (target : DefId) (f : Definition → Definition) :
    (store.modifyDef target f).maxNodes = store.maxNodes := by
  rw [modifyDef]
  split_ifs <;> rfl

end Size

end Store

/-! ## Nodes -/

theorem reserve_apply (w : Workspace) :
    reserve w = if w.store.maxNodes ≤ w.store.size then
      .error ⟨.nodeLimit ⟨w.store.maxNodes, w.store.size + 1⟩, none⟩ w else .ok () w := by
  simp only [reserve, get_bind, Store.reserve]
  split <;> rfl

theorem reserve_eq_ok {w w' : Workspace} {u : Unit} :
    reserve w = .ok u w' ↔ w.store.size < w.store.maxNodes ∧ w = w' := by
  rw [reserve_apply]
  split_ifs with h
  · simp [Nat.not_lt.mpr h]
  · simp [Nat.not_le.mp h]

/-- **A block is added if the store has room for it.** -/
theorem addBlock_eq_ok {block : Block} {w w' : Workspace} {id : BlockId} :
    addBlock block w = .ok id w' ↔ w.store.size < w.store.maxNodes ∧ id = w.store.nextBlock ∧
      w' = { w with store := w.store.withBlock block } := by
  rw [addBlock, bind_eq_ok]
  constructor
  · rintro ⟨_, w₁, h₁, h₂⟩
    obtain ⟨hroom, rfl⟩ := reserve_eq_ok.mp h₁
    cases h₂
    exact ⟨hroom, rfl, rfl⟩
  · rintro ⟨hroom, rfl, rfl⟩
    exact ⟨(), w, reserve_eq_ok.mpr ⟨hroom, rfl⟩, rfl⟩

/-- **A definition is added if the store has room for it**, and gets the next number. -/
theorem define_eq_ok {d : Definition} {w w' : Workspace} {u : Unit} :
    define d w = .ok u w' ↔ w.store.size < w.store.maxNodes ∧
      w' = ⟨w.store.withDef { d with index := w.symbols.length },
        w.symbols ++ [(d.ident.text, w.store.nextDef)], w.nextIndex⟩ := by
  rw [define, bind_eq_ok]
  constructor
  · rintro ⟨_, w₁, h₁, h₂⟩
    obtain ⟨hroom, rfl⟩ := reserve_eq_ok.mp h₁
    cases h₂
    exact ⟨hroom, rfl⟩
  · rintro ⟨hroom, rfl⟩
    exact ⟨(), w, reserve_eq_ok.mpr ⟨hroom, rfl⟩, rfl⟩

/-- The definition of a handle counts as used. -/
def Workspace.markUsed (w : Workspace) (target : DefId) : Workspace :=
  { w with store := w.store.modifyDef target ({ · with used := true }) }

/-- **A reference is added if its name is known** and the store has room. -/
theorem addReference_eq_ok {name : Token} {w w' : Workspace} {id : BlockId} :
    addReference name w = .ok id w' ↔ ∃ target, w.symbols.lookup name.text = some target ∧
      addBlock (.reference name target) (w.markUsed target) = .ok id w' := by
  rw [addReference, get_bind]
  cases w.symbols.lookup name.text with
  | none => simp [failAt_ne_ok]
  | some target =>
    simp only [Option.some.injEq, exists_eq_left']
    rfl

/-- A branch with its alternative. -/
def joined (alternative : BlockId) : Block → Block
  | .branch location condition body _ index =>
    .branch location condition body (some alternative) index
  | other => other

theorem joinAlternative_eq (branch alternative : BlockId) (w : Workspace) :
    joinAlternative branch alternative w =
      .ok () { w with store := w.store.modifyBlock branch (joined alternative) } := rfl

/-- A scope with its blocks. -/
def filled (children : List BlockId) : Block → Block
  | .scope bracket location _ => .scope bracket location children
  | other => other

theorem fillScope_eq (id : BlockId) (children : List BlockId) (w : Workspace) :
    fillScope id children w =
      .ok () { w with store := w.store.modifyBlock id (filled children) } := rfl

theorem checkDepth_eq_ok {options : ParseOptions} {opener : Token} {depth : Nat} {u : Unit}
    {w w' : Workspace} :
    checkDepth options opener depth w = .ok u w' ↔ depth ≤ options.maxDepth ∧ w = w' := by
  rw [checkDepth]
  split_ifs with h
  · simp [failAt_ne_ok, Nat.not_le.mpr h]
  · rw [pure_eq_ok]
    simp [Nat.not_lt.mp h]

theorem checkName_eq_ok {name : Token} {u : Unit} {w w' : Workspace} :
    checkName name w = .ok u w' ↔ w.symbols.lookup name.text = none ∧ w = w' := by
  rw [checkName, get_bind]
  cases w.symbols.lookup name.text with
  | none => simp [pure_eq_ok]
  | some target => simp [failAt_ne_ok]

end StackCompiler
