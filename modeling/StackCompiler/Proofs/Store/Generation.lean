import Mathlib.Algebra.Group.Nat.Defs
import StackCompiler.Proofs.Store.Transport

/-!
# Handles of earlier generations

Whatever is done with a store, its generation counts how often it was cleared, modulo two to the
power of thirty-two. A handle that was given out before the store was cleared is dead until the count
comes round; then it stands for the node that has its number.

* `StoreOp`, `Store.run`: operations on a store, and runs of them.
* `Store.DeadBlock`, `Store.DeadDef`: handles through which nothing is read or changed.
* **`Store.generation_run`**: what a run does to the generation.
* **`stale_dead_iff`**: when a handle is dead after a run.
* `stale_revived`: a run that revives a handle.
-/

namespace StackCompiler

/-! ## Runs -/

/-- **What can be done with a store.** -/
inductive StoreOp where
  | addBlock (block : Block)
  | addDef (d : Definition)
  | modifyBlock (id : BlockId) (f : Block → Block)
  | modifyDef (id : DefId) (f : Definition → Definition)
  | parse (options : ParseOptions) (source : List Char)
  | clear

/-- The store after a node was added or refused. -/
def Store.afterAdding {α : Type} (store : Store) : Except NodeLimit (α × Store) → Store
  | .ok (_, later) => later
  | .error _ => store

namespace StoreOp

/-- **The store after an operation.** -/
def apply (store : Store) : StoreOp → Store
  | .addBlock block => store.afterAdding (store.addBlock block)
  | .addDef d => store.afterAdding (store.addDef d)
  | .modifyBlock id f => store.modifyBlock id f
  | .modifyDef id f => store.modifyDef id f
  | .parse options source => (parseChars options store source).store
  | .clear => store.clear

def isClear : StoreOp → Bool
  | .clear => true
  | _ => false

end StoreOp

namespace Store

/-- **The store after a run of operations.** -/
def run (store : Store) (ops : List StoreOp) : Store := ops.foldl StoreOp.apply store

/-- Nothing is read or changed through the handle. -/
def DeadBlock (store : Store) (id : BlockId) : Prop :=
  store.block? id = none ∧ ∀ f, store.modifyBlock id f = store

def DeadDef (store : Store) (id : DefId) : Prop :=
  store.def? id = none ∧ ∀ f, store.modifyDef id f = store

/-! ## Generations -/

section Adding

variable (store : Store)

theorem afterAdding_addBlock (block : Block) :
    store.afterAdding (store.addBlock block) =
      if store.maxNodes ≤ store.size then store else store.withBlock block := by
  simp only [addBlock, reserve]
  split <;> rfl

theorem afterAdding_addDef (d : Definition) :
    store.afterAdding (store.addDef d) =
      if store.maxNodes ≤ store.size then store else store.withDef d := by
  simp only [addDef, reserve]
  split <;> rfl

end Adding

/-- **Only clearing opens a generation.** -/
theorem generation_apply (store : Store) (op : StoreOp) :
    (op.apply store).generation = store.generation + if op.isClear then 1 else 0 := by
  have hkept {later : Store} (h : later.generation = store.generation) :
      later.generation = store.generation + if false then 1 else 0 := by simp [h]
  cases op with
  | addBlock block =>
    refine hkept ?_
    rw [StoreOp.apply, afterAdding_addBlock]
    split <;> rfl
  | addDef d =>
    refine hkept ?_
    rw [StoreOp.apply, afterAdding_addDef]
    split <;> rfl
  | modifyBlock id f => exact hkept (Grown.modifyBlock store id f).generation
  | modifyDef id f => exact hkept (Grown.modifyDef store id f).generation
  | parse options source => exact hkept (parseChars_grown options store source).generation
  | clear => rfl

/-- **The generation counts how often a store was cleared.** -/
theorem generation_run (store : Store) (ops : List StoreOp) :
    (store.run ops).generation = store.generation + UInt32.ofNat (ops.countP StoreOp.isClear) := by
  induction ops generalizing store with
  | nil => simp [run]
  | cons op ops ih =>
    rw [show store.run (op :: ops) = (op.apply store).run ops from rfl, ih, generation_apply,
      List.countP_cons, UInt32.ofNat_add, UInt32.add_assoc, UInt32.add_comm (UInt32.ofNat _)]
    cases op.isClear <;> rfl

theorem run_append (store : Store) (ops more : List StoreOp) :
    store.run (ops ++ more) = (store.run ops).run more :=
  List.foldl_append

/-- Clearing a store again and again changes its generation only. -/
theorem run_clears (store : Store) {n : Nat} (hn : 0 < n) :
    store.run (List.replicate n .clear) =
      ⟨store.maxNodes, #[], #[], store.generation + UInt32.ofNat n⟩ := by
  obtain ⟨n, rfl⟩ := Nat.exists_eq_add_one.mpr hn
  clear hn
  induction n generalizing store with
  | zero => rfl
  | succ n ih =>
    rw [List.replicate_succ]
    change store.clear.run (List.replicate (n + 1) .clear) = _
    rw [ih, clear, UInt32.ofNat_add (n + 1) 1, UInt32.add_comm (UInt32.ofNat (n + 1)),
      UInt32.add_assoc]
    rfl

/-- The count comes round after two to the power of thirty-two. -/
theorem generation_run_eq_iff (store : Store) (ops : List StoreOp) :
    store.generation = (store.run ops).generation ↔ 2 ^ 32 ∣ ops.countP StoreOp.isClear := by
  rw [generation_run, eq_comm, UInt32.add_eq_left, ← UInt32.toNat_inj, UInt32.toNat_ofNat',
    UInt32.toNat_zero, Nat.dvd_iff_mod_eq_zero]

/-! ## Handles -/

theorem modify_of_getElem?_none {α : Type} {xs : Array α} {i : Nat} (h : xs[i]? = none)
    (f : α → α) : xs.modify i f = xs := by
  refine Array.ext_getElem? fun j => ?_
  rw [Array.getElem?_modify]
  by_cases hij : i = j
  · subst hij
    rw [if_pos rfl, h]
    rfl
  · rw [if_neg hij]

section Dead

variable {store : Store}

/-- A handle that does not resolve changes nothing, either. -/
theorem deadBlock_iff {id : BlockId} : store.DeadBlock id ↔ store.block? id = none := by
  refine ⟨And.left, fun h => ⟨h, fun f => ?_⟩⟩
  rw [block?] at h
  rw [modifyBlock]
  split at h
  · next hid => rw [if_pos hid, modify_of_getElem?_none h]
  · next hid => rw [if_neg hid]

theorem deadDef_iff {id : DefId} : store.DeadDef id ↔ store.def? id = none := by
  refine ⟨And.left, fun h => ⟨h, fun f => ?_⟩⟩
  rw [def?] at h
  rw [modifyDef]
  split at h
  · next hid => rw [if_pos hid, modify_of_getElem?_none h]
  · next hid => rw [if_neg hid]

theorem block?_eq_none_iff {id : BlockId} : store.block? id = none ↔
    ¬ (id.generation = store.generation ∧ id.index < store.blocks.size) := by
  rw [block?]
  split
  · next hid => simp [hid]
  · next hid => simp [hid]

theorem def?_eq_none_iff {id : DefId} : store.def? id = none ↔
    ¬ (id.generation = store.generation ∧ id.index < store.defs.size) := by
  rw [def?]
  split
  · next hid => simp [hid]
  · next hid => simp [hid]

end Dead

end Store

/-- **When a handle is dead after a run**: unless the store was cleared a multiple of two to the power
of thirty-two times and has a node of the same number. -/
theorem stale_dead_iff (store : Store) (ops : List StoreOp) :
    (∀ id block, store.block? id = some block → ((store.run ops).DeadBlock id ↔
      ¬ (2 ^ 32 ∣ ops.countP StoreOp.isClear ∧ id.index < (store.run ops).blocks.size))) ∧
    ∀ id d, store.def? id = some d → ((store.run ops).DeadDef id ↔
      ¬ (2 ^ 32 ∣ ops.countP StoreOp.isClear ∧ id.index < (store.run ops).defs.size)) := by
  refine ⟨fun id block hblock => ?_, fun id d hd => ?_⟩
  · rw [Store.deadBlock_iff, Store.block?_eq_none_iff, (Store.block?_eq_some.mp hblock).1,
      Store.generation_run_eq_iff]
  · rw [Store.deadDef_iff, Store.def?_eq_none_iff, (Store.def?_eq_some.mp hd).1,
      Store.generation_run_eq_iff]

/-- A handle is dead after the store was cleared once, although its number is given out again. -/
theorem stale_dead_once :
    let store := (Store.empty 100).run [.parse {} "func f { 1 }".toList]
    let ops := [.clear, .addBlock (.cast .start []), .parse {} "func g { 2 }".toList]
    (store.block? ⟨0, 0⟩).isSome ∧ 0 < (store.run ops).blocks.size ∧
      (store.run ops).DeadBlock ⟨0, 0⟩ := by
  intro store ops
  have hblock : store.block? ⟨0, 0⟩ =
      some (.scope .brace ((store.blocks[0]?.map Block.location).getD .start) [⟨1, 0⟩]) := by
    decide +kernel
  refine ⟨by rw [hblock]; rfl, by decide +kernel, ?_⟩
  exact ((stale_dead_iff store ops).1 _ _ hblock).mpr (by decide)

/-- A handle that was given out before the store was cleared stands for a node that was added
afterwards, if the generations have come round. -/
theorem stale_revived :
    let store := (Store.empty Store.defaultMaxNodes).run [.addBlock (.cast .start [])]
    let later := store.run
      (List.replicate (2 ^ 32) .clear ++ [.addBlock (.scope .brace .start [])])
    store.block? ⟨0, 0⟩ = some (.cast .start []) ∧
      later.block? ⟨0, 0⟩ = some (.scope .brace .start []) := by
  intro store later
  refine ⟨by decide +kernel, ?_⟩
  have hround : store.generation + UInt32.ofNat (2 ^ 32) = 0 := by decide +kernel
  have hclears : store.run (List.replicate (2 ^ 32) .clear) = ⟨store.maxNodes, #[], #[], 0⟩ := by
    rw [Store.run_clears store (Nat.two_pow_pos 32), hround]
  have hlater : later = Store.run ⟨store.maxNodes, #[], #[], 0⟩
      [.addBlock (.scope .brace .start [])] := by
    rw [← hclears]
    exact store.run_append _ _
  rw [hlater]
  decide +kernel

end StackCompiler
