import Mathlib.Data.List.Nodup
import Mathlib.Data.List.Pairwise
import StackCompiler.Proofs.Tree.Unit

/-!
# The ownership forest

The blocks that parsing adds to a store form a forest whose roots are the bodies of the functions.
Every other block has exactly one owner, so nothing is shared, nothing lies inside itself and nothing
is left over.

* `Store.allocated`, `functionBodies`, `OwnerEdge`: the nodes, the roots and the edges.
* **`OwnershipForest`**: what the blocks of a unit are.
* **`ownershipForest_of_parseChars`**: the blocks of an accepted text.
-/

namespace StackCompiler

open Relation

/-! ## The forest -/

/-- The handles that were given out since an earlier state of a store. -/
def Store.allocated (before after : Store) : List BlockId :=
  before.handles (after.blocks.size - before.blocks.size)

/-- The body of a function. -/
def Definition.body? (d : Definition) : Option BlockId :=
  match d.body with
  | .function f => some f.body
  | _ => none

/-- The bodies of the functions of a unit. -/
def functionBodies (store : Store) (unit : List DefId) : List BlockId :=
  unit.filterMap fun id => (store.def? id).bind Definition.body?

/-- **A new block owns another one**: it is a scope around it, a call of it, or a branch, alternative
or loop of which it is a part. -/
def OwnerEdge (before after : Store) (parent child : BlockId) : Prop :=
  parent ∈ before.allocated after ∧ Owns after parent child

/-- The ends of all owner edges. -/
def ownedBlocks (before after : Store) : List BlockId :=
  (before.allocated after).flatMap fun id => ((after.block? id).map Block.children).getD []

/-- The numbers of all new branches, alternatives and loops. -/
def blockNumbers (before after : Store) : List Nat :=
  (before.allocated after).filterMap fun id => (after.block? id).bind Block.number?

/-- **The new blocks of a store form a forest below the functions of a unit.** -/
structure OwnershipForest (before after : Store) (unit : List DefId) : Prop where
  /-- Every block is reached from exactly one body. -/
  rooted : ∀ id ∈ before.allocated after,
    ∃! body, body ∈ functionBodies after unit ∧ ReflTransGen (OwnerEdge before after) body id
  /-- Every block that is no body has exactly one owner edge into it. -/
  owned_once : ∀ id ∈ before.allocated after, id ∉ functionBodies after unit →
    (ownedBlocks before after).count id = 1
  /-- Bodies have none, and no two functions have the same body. -/
  bodies_free : ∀ body ∈ functionBodies after unit, body ∉ ownedBlocks before after
  bodies_nodup : (functionBodies after unit).Nodup
  /-- Bodies, and whatever is owned, are new blocks. -/
  bodies_new : ∀ body ∈ functionBodies after unit, body ∈ before.allocated after
  owned_new : ∀ id ∈ ownedBlocks before after, id ∈ before.allocated after
  /-- No block lies below itself. -/
  acyclic : ∀ id, ¬ TransGen (OwnerEdge before after) id id
  /-- Bodies of functions, and conditions and bodies of branches, alternatives and loops, are
  scopes. -/
  bodies_scopes : ∀ body ∈ functionBodies after unit, IsScope after body
  parts_scopes : ∀ id ∈ before.allocated after, ∀ block, after.block? id = some block →
    ∀ part ∈ block.parts, IsScope after part
  /-- An alternative stands right behind the branch that is joined to it. -/
  alternative_behind : ∀ id ∈ before.allocated after, ∀ bracket location children,
    after.block? id = some (.scope bracket location children) →
    ∀ (i : Nat) alternative l body index,
    children[i]? = some alternative → after.block? alternative = some (.alternative l body index) →
    ∃ (j : Nat) (branch : BlockId) (l' : Location) (c b : BlockId) (n : Nat), i = j + 1 ∧
      children[j]? = some branch ∧
      after.block? branch = some (.branch l' c b (some alternative) n)
  /-- Right behind a branch that is joined to an alternative stands that alternative. -/
  branch_before : ∀ id ∈ before.allocated after, ∀ bracket location children,
    after.block? id = some (.scope bracket location children) →
    ∀ (i : Nat) branch l c b alternative n,
    children[i]? = some branch → after.block? branch = some (.branch l c b (some alternative) n) →
    children[i + 1]? = some alternative ∧
      ∃ l' body index, after.block? alternative = some (.alternative l' body index)
  /-- A name below a function stands for a definition of that name, no later than the function. -/
  references : ∀ (i : Nat) id d body,
    unit[i]? = some id → after.def? id = some d → d.body? = some body →
    ∀ x token target, ReflTransGen (OwnerEdge before after) body x →
    after.block? x = some (.reference token target) →
    ∃ (j : Nat) (target' : Definition), unit[j]? = some target ∧ after.def? target = some target' ∧
      target'.name = token.nameText ∧ target'.index ≤ d.index
  /-- A call owns the name of a function. -/
  calls : ∀ id ∈ before.allocated after, ∀ location callee,
    after.block? id = some (.call location callee) → ∃ token target d,
      after.block? callee = some (.reference token target) ∧ after.def? target = some d ∧
        d.isFunction = true
  /-- Definitions are numbered in order. -/
  indices : ∀ (i : Nat) id, unit[i]? = some id → ∃ d, after.def? id = some d ∧ d.index = i
  /-- Branches, alternatives and loops have the first numbers, each of them once. -/
  numbers : ∃ count, (blockNumbers before after).Perm (List.range count)

/-! ## Trees with unique owners -/

section Edges

variable {α : Type} {r : α → α → Prop}

/-- Roots of the same node are the same, where owners are unique. -/
theorem root_unique {a b x : α} (hax : ReflTransGen r a x) (hbx : ReflTransGen r b x)
    (ha : ∀ p, ¬ r p a) (hb : ∀ p, ¬ r p b) (hunique : ∀ p q c, r p c → r q c → p = q) :
    a = b := by
  induction hax with
  | refl =>
    rcases hbx.cases_tail with h | ⟨p, -, hp⟩
    · exact h
    · exact absurd hp (ha p)
  | tail _ hyx ih =>
    rcases hbx.cases_tail with rfl | ⟨p, hbp, hpx⟩
    · exact absurd hyx (hb _)
    · exact ih (hunique _ _ _ hyx hpx ▸ hbp)

/-- What is reached from a root lies on no cycle, where owners are unique. -/
theorem not_cycle_of_root {a x : α} (hax : ReflTransGen r a x) (ha : ∀ p, ¬ r p a)
    (hunique : ∀ p q c, r p c → r q c → p = q) : ¬ TransGen r x x := by
  induction hax with
  | refl =>
    intro h
    obtain ⟨p, -, hp⟩ := TransGen.tail'_iff.mp h
    exact ha p hp
  | @tail y x _ hyx ih =>
    intro h
    obtain ⟨p, hxp, hpx⟩ := TransGen.tail'_iff.mp h
    obtain rfl := hunique _ _ _ hyx hpx
    exact ih (TransGen.head' hyx hxp)

end Edges

/-! ## Rows -/

theorem Paired.alternative_behind {store : Store} {ids : List BlockId} (h : Paired store ids)
    {i : Nat} {alternative body : BlockId} {l : Location} {index : Nat}
    (hi : ids[i]? = some alternative)
    (halternative : store.block? alternative = some (.alternative l body index)) :
    ∃ (j : Nat) (branch : BlockId) (l' : Location) (c b : BlockId) (n : Nat), i = j + 1 ∧
      ids[j]? = some branch ∧
      store.block? branch = some (.branch l' c b (some alternative) n) := by
  induction h generalizing i with
  | nil => simp at hi
  | alone hblock halone hrest ih =>
    cases i with
    | zero =>
      obtain rfl := Option.some.inj hi
      rw [hblock] at halternative
      cases halternative
      cases halone
    | succ i =>
      obtain ⟨j, branch, l', c, b, n, rfl, hj, hbranch⟩ := ih hi
      exact ⟨j + 1, branch, l', c, b, n, rfl, hj, hbranch⟩
  | pair hbranch _ hrest ih =>
    rcases i with _ | _ | i
    · obtain rfl := Option.some.inj hi
      rw [hbranch] at halternative
      cases halternative
    · obtain rfl := Option.some.inj hi
      exact ⟨0, _, _, _, _, _, rfl, rfl, hbranch⟩
    · obtain ⟨j, branch, l', c, b, n, rfl, hj, hbranch⟩ := ih hi
      exact ⟨j + 2, branch, l', c, b, n, rfl, hj, hbranch⟩

theorem Paired.branch_before {store : Store} {ids : List BlockId} (h : Paired store ids)
    {i : Nat} {branch c b alternative : BlockId} {l : Location} {n : Nat}
    (hi : ids[i]? = some branch)
    (hbranch : store.block? branch = some (.branch l c b (some alternative) n)) :
    ids[i + 1]? = some alternative ∧
      ∃ l' body index, store.block? alternative = some (.alternative l' body index) := by
  induction h generalizing i with
  | nil => simp at hi
  | alone hblock halone hrest ih =>
    cases i with
    | zero =>
      obtain rfl := Option.some.inj hi
      rw [hblock] at hbranch
      cases hbranch
      cases halone
    | succ i => exact ih hi
  | pair hbranch' halternative hrest ih =>
    rcases i with _ | _ | i
    · obtain rfl := Option.some.inj hi
      rw [hbranch'] at hbranch
      cases hbranch
      exact ⟨rfl, _, _, _, halternative⟩
    · obtain rfl := Option.some.inj hi
      rw [halternative] at hbranch
      cases hbranch
    · exact ih hi

/-! ## Chunks -/

namespace Chunk

/-- The body of a function. -/
def root? (chunk : Chunk) : Option BlockId := chunk.body.map fun tree => tree.1.id

theorem count_ids (chunk : Chunk) (x : BlockId) :
    chunk.root?.toList.count x + chunk.contents.below.count x = chunk.contents.ids.count x := by
  obtain ⟨d, body⟩ := chunk
  cases body with
  | none => rfl
  | some tree =>
    obtain ⟨head, F⟩ := tree
    have := F.count_ids x
    simp [root?, contents, Block.children, List.count_cons]
    omega

theorem count_all (chunks : List Chunk) (x : BlockId) :
    (chunks.filterMap root?).count x + (all chunks).below.count x = (all chunks).ids.count x := by
  induction chunks with
  | nil => rfl
  | cons chunk chunks ih =>
    have hchunk := chunk.count_ids x
    rw [List.filterMap_cons]
    cases hroot : chunk.root? with
    | none =>
      simp only [hroot, Option.toList_none, List.count_nil] at hchunk
      simp only [all, Contents.below_append, Contents.ids_append, List.count_append]
      omega
    | some root =>
      simp only [hroot, Option.toList_some, List.count_cons, List.count_nil] at hchunk
      simp only [all, Contents.below_append, Contents.ids_append, List.count_append,
        List.count_cons]
      omega

theorem perm_numbers (chunk : Chunk) : chunk.contents.numbered.Perm chunk.contents.numbers := by
  obtain ⟨d, body⟩ := chunk
  cases body with
  | none => exact .nil
  | some tree => exact tree.2.perm_numbers

theorem perm_numbers_all (chunks : List Chunk) : (all chunks).numbered.Perm (all chunks).numbers := by
  induction chunks with
  | nil => exact .nil
  | cons chunk chunks ih =>
    rw [all, Contents.numbered_append, Contents.numbers_append]
    exact chunk.perm_numbers.append ih

section Stored

variable {store : Store} {chunk : Chunk}

theorem shaped (h : chunk.contents.Stored store) : chunk.contents.Shaped store := by
  obtain ⟨d, body⟩ := chunk
  cases body with
  | none => exact fun _ hp => absurd hp List.not_mem_nil
  | some tree =>
    have hF := (Contents.stored_append.mp h).2
    exact Contents.shaped_append.mpr
      ⟨Contents.shaped_node.mpr (Forest.wellShaped_scope hF tree.1), Forest.shaped hF⟩

theorem reached (h : chunk.contents.Stored store) :
    chunk.contents.ReachedFrom store chunk.root?.toList := by
  obtain ⟨d, body⟩ := chunk
  cases body with
  | none => exact fun _ hid => absurd hid List.not_mem_nil
  | some tree =>
    obtain ⟨hroot, hF⟩ := Contents.stored_append.mp h
    refine Contents.reachedFrom_append.mpr ⟨Contents.reachedFrom_node _ (.head _), ?_⟩
    exact (Forest.reached hF).above fun _ htop => ⟨_, Contents.stored_node.mp hroot, htop⟩

theorem leafy (chunk : Chunk) : chunk.contents.Leafy := by
  obtain ⟨d, body⟩ := chunk
  cases body with
  | none => exact fun _ hp => absurd hp List.not_mem_nil
  | some tree => exact (Contents.leafy_node _ rfl).append tree.2.leafy

theorem root_mem {root : BlockId} (h : chunk.root? = some root) : root ∈ chunk.contents.ids := by
  obtain ⟨d, body⟩ := chunk
  cases body with
  | none => cases h
  | some tree =>
    cases h
    exact .head _

theorem root_isScope (hstored : chunk.contents.Stored store) {root : BlockId}
    (h : chunk.root? = some root) : IsScope store root := by
  obtain ⟨d, body⟩ := chunk
  cases body with
  | none => cases h
  | some tree =>
    cases h
    exact ⟨_, _, _, Contents.stored_node.mp (Contents.stored_append.mp hstored).1⟩

/-- A function has a body, and nothing else has. -/
theorem root?_eq (h : chunk.Fits) {d : Definition} (hd : d.marked = chunk.definition.marked) :
    d.body? = chunk.root? := by
  have hbody : d.body = chunk.definition.body := (Definition.mk.inj hd).2.2.2.2.2
  obtain ⟨d', body⟩ := chunk
  rw [Definition.body?, hbody]
  unfold Fits at h
  split at h
  · next f head F hf hbody =>
    simp only at hf hbody
    rw [hf, root?, hbody]
    exact congrArg some h
  · next hf hbody =>
    simp only at hf hbody
    rw [hf, root?, hbody]
    rfl
  · next hf hbody =>
    simp only at hf hbody
    rw [hf, root?, hbody]
    rfl
  · exact h.elim

end Stored

end Chunk

/-! ## Units -/

namespace UnitTree

variable {before after : Store} {unit : List DefId} {chunks : List Chunk}

theorem allocated_eq (h : UnitTree before after unit chunks) :
    before.allocated after = (Chunk.all chunks).ids := by
  have hsize := congrArg List.length h.blocks
  simp only [Array.length_toList, List.length_append, List.length_map] at hsize
  rw [Store.allocated, h.ids, hsize, Nat.add_sub_cancel_left]

theorem nodup_ids (h : UnitTree before after unit chunks) : (Chunk.all chunks).ids.Nodup := by
  rw [h.ids, Store.handles]
  refine List.Nodup.map (fun i j hij => (BlockId.mk.inj hij).1) List.nodup_range'

theorem ownedBlocks_eq (h : UnitTree before after unit chunks) :
    ownedBlocks before after = (Chunk.all chunks).below := by
  rw [ownedBlocks, h.allocated_eq, Contents.ids, List.flatMap_map, Contents.below]
  refine List.flatMap_congr fun p hp => ?_
  rw [h.stored p hp]
  rfl

theorem blockNumbers_eq (h : UnitTree before after unit chunks) :
    blockNumbers before after = (Chunk.all chunks).numbered := by
  rw [blockNumbers, h.allocated_eq, Contents.ids, List.filterMap_map, Contents.numbered]
  refine List.filterMap_congr fun p hp => ?_
  rw [Function.comp, h.stored p hp]
  rfl

theorem functionBodies_eq (h : UnitTree before after unit chunks) :
    functionBodies after unit = chunks.filterMap Chunk.root? := by
  have hmap : unit.map (fun id => (after.def? id).bind Definition.body?) =
      chunks.map Chunk.root? := by
    refine List.ext_getElem? fun i => ?_
    rw [List.getElem?_map, List.getElem?_map]
    cases hi : chunks[i]? with
    | none =>
      have hlength := List.getElem?_eq_none_iff.mp hi
      rw [List.getElem?_eq_none (h.length ▸ hlength)]
      rfl
    | some chunk =>
      obtain ⟨⟨id, d, hid, hd, hmarked⟩, -, hfits, -, -⟩ := h.chunk i chunk hi
      rw [hid, Option.map_some, Option.map_some, hd]
      exact congrArg some (Chunk.root?_eq hfits hmarked)
  have hfilter {α β : Type} (f : α → Option β) (l : List α) :
      l.filterMap f = (l.map f).filterMap id := by
    rw [List.filterMap_map]
    rfl
  rw [functionBodies, hfilter, hmap, ← hfilter]

theorem count_bodies (h : UnitTree before after unit chunks) (x : BlockId) :
    (functionBodies after unit).count x + (ownedBlocks before after).count x =
      (before.allocated after).count x := by
  rw [h.functionBodies_eq, h.ownedBlocks_eq, h.allocated_eq]
  exact Chunk.count_all chunks x

theorem count_le_one (h : UnitTree before after unit chunks) (x : BlockId) :
    (before.allocated after).count x ≤ 1 := by
  rw [h.allocated_eq]
  exact List.nodup_iff_count_le_one.mp h.nodup_ids x

theorem mem_allocated (h : UnitTree before after unit chunks) {id : BlockId} :
    id ∈ before.allocated after ↔ ∃ chunk ∈ chunks, id ∈ chunk.contents.ids := by
  rw [h.allocated_eq, Contents.ids, List.mem_map]
  constructor
  · rintro ⟨p, hp, rfl⟩
    obtain ⟨chunk, hchunk, hp⟩ := Chunk.mem_nodes_all.mp hp
    exact ⟨chunk, hchunk, List.mem_map_of_mem hp⟩
  · rintro ⟨chunk, hchunk, hid⟩
    obtain ⟨p, hp, rfl⟩ := List.mem_map.mp hid
    exact ⟨p, Chunk.mem_nodes_all.mpr ⟨chunk, hchunk, hp⟩, rfl⟩

/-- The block of a handle is the one that stands in its chunk. -/
theorem mem_nodes (h : UnitTree before after unit chunks) {chunk : Chunk} (hchunk : chunk ∈ chunks)
    {id : BlockId} (hid : id ∈ chunk.contents.ids) {block : Block}
    (hblock : after.block? id = some block) : (id, block) ∈ chunk.contents.nodes := by
  obtain ⟨⟨id', block'⟩, hp, rfl⟩ := List.mem_map.mp hid
  have hstored := h.stored_chunk hchunk _ hp
  rw [hblock] at hstored
  cases hstored
  exact hp

/-- What a block of a chunk owns lies in the chunk. -/
theorem owned_mem (h : UnitTree before after unit chunks) {chunk : Chunk} (hchunk : chunk ∈ chunks)
    {parent child : BlockId} (hparent : parent ∈ chunk.contents.ids)
    (howns : Owns after parent child) : child ∈ chunk.contents.ids := by
  obtain ⟨block, hblock, hchild⟩ := howns
  have hbelow : child ∈ chunk.contents.below :=
    List.mem_flatMap.mpr ⟨_, h.mem_nodes hchunk hparent hblock, hchild⟩
  have hcount := chunk.count_ids child
  have := List.count_pos_iff.mpr hbelow
  exact List.count_pos_iff.mp (by omega)

theorem reached_mem (h : UnitTree before after unit chunks) {chunk : Chunk} (hchunk : chunk ∈ chunks)
    {a x : BlockId} (ha : a ∈ chunk.contents.ids)
    (hax : ReflTransGen (OwnerEdge before after) a x) : x ∈ chunk.contents.ids := by
  induction hax with
  | refl => exact ha
  | tail _ hedge ih => exact h.owned_mem hchunk ih hedge.2

theorem edges_of_owns (h : UnitTree before after unit chunks) {a x : BlockId}
    (ha : a ∈ before.allocated after) (hax : ReflTransGen (Owns after) a x) :
    ReflTransGen (OwnerEdge before after) a x := by
  induction hax with
  | refl => exact .refl
  | @tail y x _ howns ih =>
    obtain ⟨chunk, hchunk, ha⟩ := h.mem_allocated.mp ha
    have hy := h.mem_allocated.mpr ⟨chunk, hchunk, h.reached_mem hchunk ha ih⟩
    exact ih.tail ⟨hy, howns⟩

theorem mem_ownedBlocks {parent child : BlockId}
    (hedge : OwnerEdge before after parent child) : child ∈ ownedBlocks before after := by
  obtain ⟨hparent, block, hblock, hchild⟩ := hedge
  refine List.mem_flatMap.mpr ⟨parent, hparent, ?_⟩
  rw [hblock]
  exact hchild

/-- **Owners are unique.** -/
theorem owner_unique (h : UnitTree before after unit chunks) {p q c : BlockId}
    (hp : OwnerEdge before after p c) (hq : OwnerEdge before after q c) : p = q := by
  have hnodup : (ownedBlocks before after).Nodup :=
    List.nodup_iff_count_le_one.mpr fun x => by
      have := h.count_bodies x
      have := h.count_le_one x
      omega
  obtain ⟨hpmem, block, hblock, hpc⟩ := hp
  obtain ⟨hqmem, block', hblock', hqc⟩ := hq
  by_contra hne
  let children (id : BlockId) : List BlockId := ((after.block? id).map Block.children).getD []
  have : Std.Symm (Function.onFun List.Disjoint children) :=
    ⟨fun _ _ hdisjoint _ ha hb => hdisjoint hb ha⟩
  have hdisjoint : (children p).Disjoint (children q) :=
    (List.nodup_flatMap.mp hnodup).2.forall hpmem hqmem hne
  refine hdisjoint (a := c) ?_ ?_
  · simpa [children, hblock] using hpc
  · simpa [children, hblock'] using hqc

/-- **Bodies have no owner.** -/
theorem body_unowned (h : UnitTree before after unit chunks) {body : BlockId}
    (hbody : body ∈ functionBodies after unit) : body ∉ ownedBlocks before after := by
  intro howned
  have := h.count_bodies body
  have := h.count_le_one body
  have := List.count_pos_iff.mpr hbody
  have := List.count_pos_iff.mpr howned
  omega

theorem body_no_edge (h : UnitTree before after unit chunks) {body : BlockId}
    (hbody : body ∈ functionBodies after unit) (p : BlockId) : ¬ OwnerEdge before after p body :=
  fun hedge => h.body_unowned hbody (mem_ownedBlocks hedge)

/-- **Every block is reached from a body.** -/
theorem exists_root (h : UnitTree before after unit chunks) {id : BlockId}
    (hid : id ∈ before.allocated after) :
    ∃ body ∈ functionBodies after unit, ReflTransGen (OwnerEdge before after) body id := by
  obtain ⟨chunk, hchunk, hmem⟩ := h.mem_allocated.mp hid
  obtain ⟨root, hroot, hreach⟩ := Chunk.reached (h.stored_chunk hchunk) id hmem
  have hroot' : chunk.root? = some root := Option.mem_toList.mp hroot
  refine ⟨root, ?_, h.edges_of_owns ?_ hreach⟩
  · rw [h.functionBodies_eq]
    exact List.mem_filterMap.mpr ⟨chunk, hchunk, hroot'⟩
  · exact h.mem_allocated.mpr ⟨chunk, hchunk, Chunk.root_mem hroot'⟩

/-- **A name of a chunk** stands for a definition no later than it. -/
theorem reference_fits (h : UnitTree before after unit chunks) {i : Nat} {chunk : Chunk}
    (hi : chunks[i]? = some chunk) {x : BlockId} {token : Token} {target : DefId}
    (hx : (x, Block.reference token target) ∈ chunk.contents.nodes) :
    token.IsName ∧ ∃ chunk', StandsForChunk unit chunks i token target chunk' := by
  obtain ⟨id, l, hl, hmem, -⟩ := chunk.leafy _ hx rfl
  have hfits := (h.chunk i chunk hi).leaves l hl
  cases l with
  | reference token' target' =>
    cases List.mem_singleton.mp hmem
    exact hfits
  | call location callee token' target' =>
    rcases List.mem_pair.mp hmem with heq | heq
    · cases heq
      obtain ⟨hname, chunk', hchunk', -⟩ := hfits
      exact ⟨hname, chunk', hchunk'⟩
    · cases heq
  | expression token' => cases List.mem_singleton.mp hmem
  | cast location types => cases List.mem_singleton.mp hmem
  | assembly token' => cases List.mem_singleton.mp hmem

/-- **A call of a chunk** comes with the name of a function. -/
theorem call_fits (h : UnitTree before after unit chunks) {i : Nat} {chunk : Chunk}
    (hi : chunks[i]? = some chunk) {x callee : BlockId} {location : Location}
    (hx : (x, Block.call location callee) ∈ chunk.contents.nodes) :
    ∃ token target chunk', (callee, Block.reference token target) ∈ chunk.contents.nodes ∧
      StandsForChunk unit chunks i token target chunk' ∧ chunk'.definition.isFunction = true := by
  obtain ⟨id, l, hl, hmem, hsub⟩ := chunk.leafy _ hx rfl
  have hfits := (h.chunk i chunk hi).leaves l hl
  cases l with
  | call location' callee' token target =>
    rcases List.mem_pair.mp hmem with heq | heq
    · cases heq
    · cases heq
      obtain ⟨-, chunk', hchunk', hfunction⟩ := hfits
      exact ⟨token, target, chunk', hsub (.head _), hchunk', hfunction⟩
  | reference token' target' => cases List.mem_singleton.mp hmem
  | expression token' => cases List.mem_singleton.mp hmem
  | cast location types => cases List.mem_singleton.mp hmem
  | assembly token' => cases List.mem_singleton.mp hmem

/-- **The blocks of a unit form a forest.** -/
theorem ownershipForest (h : UnitTree before after unit chunks) :
    OwnershipForest before after unit where
  rooted id hid := by
    obtain ⟨body, hbody, hreach⟩ := h.exists_root hid
    refine ⟨body, ⟨hbody, hreach⟩, ?_⟩
    rintro body' ⟨hbody', hreach'⟩
    exact root_unique hreach' hreach (h.body_no_edge hbody') (h.body_no_edge hbody)
      fun _ _ _ => h.owner_unique
  owned_once id hid hbody := by
    have := h.count_bodies id
    have := h.count_le_one id
    have := List.count_pos_iff.mpr hid
    have := List.count_eq_zero.mpr hbody
    omega
  bodies_free body hbody := h.body_unowned hbody
  bodies_nodup := List.nodup_iff_count_le_one.mpr fun x => by
    have := h.count_bodies x
    have := h.count_le_one x
    omega
  bodies_new body hbody := by
    have := h.count_bodies body
    have := List.count_pos_iff.mpr hbody
    exact List.count_pos_iff.mp (by omega)
  owned_new id hid := by
    have := h.count_bodies id
    have := List.count_pos_iff.mpr hid
    exact List.count_pos_iff.mp (by omega)
  acyclic id hcycle := by
    obtain ⟨_, hedge, -⟩ := TransGen.head'_iff.mp hcycle
    obtain ⟨body, hbody, hreach⟩ := h.exists_root hedge.1
    exact not_cycle_of_root hreach (h.body_no_edge hbody) (fun _ _ _ => h.owner_unique) hcycle
  bodies_scopes body hbody := by
    rw [h.functionBodies_eq] at hbody
    obtain ⟨chunk, hchunk, hroot⟩ := List.mem_filterMap.mp hbody
    exact Chunk.root_isScope (h.stored_chunk hchunk) hroot
  parts_scopes id hid block hblock := by
    obtain ⟨chunk, hchunk, hmem⟩ := h.mem_allocated.mp hid
    exact (Chunk.shaped (h.stored_chunk hchunk) _ (h.mem_nodes hchunk hmem hblock)).parts
  alternative_behind id hid bracket location children hblock i alternative l body index hi
      halternative := by
    obtain ⟨chunk, hchunk, hmem⟩ := h.mem_allocated.mp hid
    have hshaped := Chunk.shaped (h.stored_chunk hchunk) _ (h.mem_nodes hchunk hmem hblock)
    exact (hshaped.row _ _ _ rfl).alternative_behind hi halternative
  branch_before id hid bracket location children hblock i branch l c b alternative n hi
      hbranch := by
    obtain ⟨chunk, hchunk, hmem⟩ := h.mem_allocated.mp hid
    have hshaped := Chunk.shaped (h.stored_chunk hchunk) _ (h.mem_nodes hchunk hmem hblock)
    exact (hshaped.row _ _ _ rfl).branch_before hi hbranch
  references i id d body hunit hd hbody x token target hreach hx := by
    obtain ⟨chunk, d', hi, hd', hmarked, hindex⟩ := h.definition_at hunit
    rw [hd] at hd'
    cases hd'
    have hchunk := List.mem_of_getElem? hi
    have hroot : chunk.root? = some body := by
      rw [← Chunk.root?_eq (h.chunk i chunk hi).fits hmarked, hbody]
    have hmem := h.reached_mem hchunk (Chunk.root_mem hroot) hreach
    obtain ⟨hname, chunk', hstands⟩ := h.reference_fits hi (h.mem_nodes hchunk hmem hx)
    obtain ⟨j, target', hj, htarget, -, htext, hle⟩ := h.target_at hstands
    exact ⟨j, target', hj, htarget, htext.trans hname.nameText.symm, hindex ▸ hle⟩
  calls id hid location callee hcall := by
    obtain ⟨chunk, hchunk, hmem⟩ := h.mem_allocated.mp hid
    obtain ⟨i, hlt, rfl⟩ := List.getElem_of_mem hchunk
    obtain ⟨token, target, chunk', hcallee, hstands, hfunction⟩ :=
      h.call_fits (List.getElem?_eq_getElem hlt) (h.mem_nodes hchunk hmem hcall)
    obtain ⟨j, d, -, hd, hmarked, -⟩ := h.target_at hstands
    refine ⟨token, target, d, h.stored_chunk hchunk _ hcallee, hd, ?_⟩
    exact (congrArg Definition.isFunction hmarked).trans hfunction
  indices i id hunit := by
    obtain ⟨chunk, d, -, hd, -, hindex⟩ := h.definition_at hunit
    exact ⟨d, hd, hindex⟩
  numbers := by
    refine ⟨(Chunk.all chunks).numbers.length, ?_⟩
    rw [h.blockNumbers_eq, ← h.numbers]
    exact Chunk.perm_numbers_all chunks

end UnitTree

/-- **Parsing leaves an ownership forest behind**, whatever the text and whatever the store held
before. -/
theorem ownershipForest_of_parseChars {options : ParseOptions} {store : Store}
    {source : List Char} {unit : List DefId}
    (h : (parseChars options store source).outcome = .ok unit) :
    OwnershipForest store (parseChars options store source).store unit := by
  have hparsed : parseChars options store source =
      ⟨.ok unit, (parseChars options store source).store⟩ := by rw [← h]
  obtain ⟨chunks, hunit⟩ := unitTree_of_parseChars hparsed
  exact hunit.ownershipForest

/-- A function with a chain of branches, a loop and a call of itself. -/
theorem ownershipForest_chain :
    let parsed := parseChars {} (Store.empty 100)
      "func f { if (1) { 2 } elif [0] { } else { 3 } loop (0) { f call } }".toList
    parsed.outcome = .ok [⟨0, 0⟩] ∧ OwnershipForest (Store.empty 100) parsed.store [⟨0, 0⟩] :=
  ⟨by decide +kernel, ownershipForest_of_parseChars (by decide +kernel)⟩

end StackCompiler
