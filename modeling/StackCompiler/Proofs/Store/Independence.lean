import StackCompiler.Proofs.Store.Frame

/-!
# Parsing into a store with contents

What a store holds already has no influence on a unit: if there is room for its nodes, parsing a text
has the result that it has in a fresh store. The nodes of the unit get the next numbers and the
generation of the store; its outline and its code are the same.

* `Store.behind`: the handles of nodes that are added to a store.
* `StandsBehind`: a unit in a store, and the same unit in a fresh store.
* **`parseChars_independent`**: parsing a text into either.
-/

namespace StackCompiler

open Relation

/-! ## Statements -/

/-- **The handles that nodes of a fresh store get in a store with contents**: the numbers follow those
that are taken, and the generation is the store's. -/
def Store.behind (base : Store) : Renaming where
  block id := ⟨base.blocks.size + id.index, base.generation⟩
  definition id := ⟨base.defs.size + id.index, base.generation⟩

/-- **A unit that was parsed into a store with contents**, next to the same unit in a fresh store. -/
structure StandsBehind (base fresh store : Store) (freshUnit unit : List DefId) : Prop where
  handles : unit = freshUnit.map base.behind.definition
  blocks : store.blocks = base.blocks ++ fresh.blocks.map (Block.rename base.behind)
  defs : store.defs = base.defs ++ fresh.defs.map (Definition.rename base.behind)
  maxNodes : store.maxNodes = base.maxNodes
  generation : store.generation = base.generation
  outline : outline store unit = outline fresh freshUnit
  code : ∀ options device,
    emitUnit options store unit device = emitUnit options fresh freshUnit device

/-! ## Handles of a unit -/

theorem Store.Holds.reached {store : Store} {n : Nat} {a x : BlockId} (h : store.Holds n a)
    (hax : ReflTransGen (Owns store) a x) : ∃ m, store.Holds m x := by
  induction hax with
  | refl => exact ⟨n, h⟩
  | tail _ howns ih =>
    obtain ⟨m, hm⟩ := ih
    obtain ⟨block, hblock, hchild⟩ := howns
    cases hm with
    | @node m id block' hblock' _ hbelow =>
      rw [hblock] at hblock'
      cases hblock'
      exact ⟨m, hbelow _ hchild⟩

namespace UnitTree

variable {before after : Store} {unit : List DefId} {chunks : List Chunk}

theorem holdsUnit_self (h : UnitTree before after unit chunks) : after.HoldsUnit unit :=
  h.holdsUnit (fun _ _ => rfl) fun _ _ => rfl

/-- **Every block that parsing has added is held** with everything below it. -/
theorem holds_allocated (h : UnitTree before after unit chunks) {id : BlockId}
    (hid : id ∈ before.allocated after) : ∃ n, after.Holds n id := by
  obtain ⟨body, hbody, hreach⟩ := h.exists_root hid
  obtain ⟨d, hd, hroot⟩ := List.mem_filterMap.mp hbody
  obtain ⟨d', hd', hholds⟩ := h.holdsUnit_self d hd
  rw [hd'] at hroot
  exact (hholds body hroot).reached (ReflTransGen.mono (fun _ _ hedge => hedge.2) _ _ hreach)

end UnitTree

/-! ## Renamings that agree -/

section Congruence

variable {ρ ρ' : Renaming}

theorem Block.rename_congr {block : Block} (hbelow : ∀ id ∈ block.children, ρ.block id = ρ'.block id)
    (hnext : ∀ id ∈ block.next?, ρ.block id = ρ'.block id)
    (htarget : ∀ id ∈ block.target?, ρ.definition id = ρ'.definition id) :
    block.rename ρ = block.rename ρ' := by
  cases block with
  | reference token target => rw [rename, rename, htarget target rfl]
  | call location callee => rw [rename, rename, hbelow callee (.head _)]
  | scope bracket location children =>
    exact congrArg (scope bracket location) (List.map_congr_left hbelow)
  | branch location condition body next index =>
    rw [rename, rename, hbelow condition (.head _), hbelow body (.tail _ (.head _)),
      show next.map ρ.block = next.map ρ'.block from Option.map_congr hnext]
  | alternative location body index => rw [rename, rename, hbelow body (.head _)]
  | loop location condition body index =>
    rw [rename, rename, hbelow condition (.head _), hbelow body (.tail _ (.head _))]
  | expression token | cast location types | assembly token => rfl

theorem Definition.rename_congr {d : Definition}
    (hbody : ∀ id ∈ d.body?, ρ.block id = ρ'.block id) : d.rename ρ = d.rename ρ' := by
  obtain ⟨location, ident, place, used, index, body⟩ := d
  cases body with
  | function f => simp only [rename, DefinitionBody.rename, Function.rename, hbody f.body rfl]
  | memory capacity => rfl
  | string literal => rfl

end Congruence

section Resolves

variable {base fresh : Store}

theorem Store.shift_block_eq (hgeneration : fresh.generation = 0) {id : BlockId}
    (hid : ∃ block, fresh.block? id = some block) : base.shift.block id = base.behind.block id := by
  obtain ⟨block, hblock⟩ := hid
  have hzero : id.generation = 0 := (block?_eq_some.mp hblock).1.trans hgeneration
  simp [shift, behind, hzero]

theorem Store.shift_definition_eq (hgeneration : fresh.generation = 0) {id : DefId}
    (hid : ∃ d, fresh.def? id = some d) : base.shift.definition id = base.behind.definition id := by
  obtain ⟨d, hd⟩ := hid
  have hzero : id.generation = 0 := (def?_eq_some.mp hd).1.trans hgeneration
  simp [shift, behind, hzero]

theorem Store.Holds.resolves {n : Nat} {id : BlockId} (h : fresh.Holds n id) :
    ∃ block, fresh.block? id = some block := by
  cases h with
  | node hblock _ _ => exact ⟨_, hblock⟩

end Resolves

section Fresh

variable {options : ParseOptions} {limit : Nat} {source : List Char} {fresh : Store}
  {unit : List DefId} (h : parseChars options (.empty limit) source = ⟨.ok unit, fresh⟩)
  (base : Store)

include h

/-- Every block of a fresh store belongs to the unit, so its handles are of generation zero. -/
theorem rename_shift_of_mem {block : Block} (hblock : block ∈ fresh.blocks) :
    block.rename base.shift = block.rename base.behind := by
  obtain ⟨chunks, htree⟩ := unitTree_of_parseChars h
  have hgeneration : fresh.generation = 0 := htree.generation
  obtain ⟨i, hlt, rfl⟩ := Array.getElem_of_mem hblock
  have hget : fresh.block? ⟨i, 0⟩ = some fresh.blocks[i] :=
    Store.block?_eq_some.mpr ⟨hgeneration.symm, Array.getElem?_eq_getElem hlt⟩
  have hnew : (⟨i, 0⟩ : BlockId) ∈ (Store.empty limit).allocated fresh :=
    List.mem_map.mpr ⟨i, List.mem_range'_1.mpr ⟨Nat.zero_le _, by simpa [Store.empty]⟩, rfl⟩
  obtain ⟨n, hn⟩ := htree.holds_allocated hnew
  cases hn with
  | node hblock hlinks hbelow =>
    rw [hget] at hblock
    cases hblock
    exact Block.rename_congr
      (fun child hchild => Store.shift_block_eq hgeneration (hbelow child hchild).resolves)
      (fun next hnext => Store.shift_block_eq hgeneration (hlinks.next next hnext))
      fun target htarget => Store.shift_definition_eq hgeneration (hlinks.target target htarget)

theorem rename_shift_of_mem_defs {d : Definition} (hd : d ∈ fresh.defs) :
    d.rename base.shift = d.rename base.behind := by
  obtain ⟨chunks, htree⟩ := unitTree_of_parseChars h
  obtain ⟨hdefs, hunit⟩ := unit_of_parseChars h
  obtain ⟨i, hlt, rfl⟩ := Array.getElem_of_mem hd
  have hi : unit[i]? = some ⟨i, 0⟩ := by
    have hat := hunit i (by simpa [hdefs, Store.empty] using hlt)
    simpa [Store.empty] using hat
  obtain ⟨d, hd, hbody⟩ := htree.holdsUnit_self _ (List.mem_of_getElem? hi)
  have hget := (Store.def?_eq_some.mp hd).2
  rw [Array.getElem?_eq_getElem hlt] at hget
  rw [Option.some.inj hget]
  exact Definition.rename_congr fun body hmem =>
    Store.shift_block_eq htree.generation (hbody body hmem).resolves

/-- **A unit behind the nodes of a store**, next to the unit in a fresh store. -/
theorem standsBehind_graft :
    StandsBehind base fresh (base.graft fresh) unit (unit.map base.shift.definition) := by
  obtain ⟨chunks, htree⟩ := unitTree_of_parseChars h
  have hgeneration : fresh.generation = 0 := htree.generation
  have hholds := htree.holdsUnit_self
  have hcarries : Carries base.shift fresh (base.graft fresh) := by
    refine ⟨fun hblock => ?_, fun hd => ?_, by simp [Store.graft]⟩
    · rw [Store.block?_graft, hblock]
      rfl
    · rw [Store.def?_graft, hd]
      rfl
  refine ⟨List.map_congr_left fun id hid => ?_, ?_, ?_, rfl, by simp [Store.graft, hgeneration],
    hcarries.outline_eq hholds, hcarries.emitUnit_eq hholds⟩
  · obtain ⟨d, hd, -⟩ := hholds id hid
    exact Store.shift_definition_eq hgeneration ⟨d, hd⟩
  · exact congrArg (base.blocks ++ ·)
      (Array.map_congr_left fun block hblock => rename_shift_of_mem h base hblock)
  · exact congrArg (base.defs ++ ·)
      (Array.map_congr_left fun d hd => rename_shift_of_mem_defs h base hd)

end Fresh

/-! ## Texts -/

/-- **Parsing does not depend on what a store holds.** If a text is parsed into a fresh store without
meeting its limit, and a store has room for the nodes that are left there, then parsing the text into
that store fails with the same error, or gives the same unit. -/
theorem parseChars_independent (options : ParseOptions) (store : Store) (source : List Char)
    (limit : Nat)
    (hlimit : ∀ e, (parseChars options (.empty limit) source).outcome = .error e →
      e.cause.isNodeLimit = false)
    (hroom : (parseChars options (.empty limit) source).store.size ≤ store.free) :
    let fresh := parseChars options (.empty limit) source
    let parsed := parseChars options store source
    (∀ e, parsed.outcome = .error e ↔ fresh.outcome = .error e) ∧
      ∀ freshUnit, fresh.outcome = .ok freshUnit → ∃ unit, parsed.outcome = .ok unit ∧
        StandsBehind store fresh.store parsed.store freshUnit unit := by
  intro fresh parsed
  have hparsed : parsed = fresh.graft store :=
    parseChars_graft_of_room options store source hlimit hroom
  rw [hparsed]
  cases houtcome : fresh.outcome with
  | error e =>
    have hgraft : (fresh.graft store).outcome = .error e := by
      simp only [Parsed.graft, houtcome, ParseError.graft_of_isNodeLimit (hlimit e houtcome)]
    rw [hgraft]
    exact ⟨fun _ => Iff.rfl, fun _ h => by cases h⟩
  | ok freshUnit =>
    have hfresh : parseChars options (.empty limit) source = ⟨.ok freshUnit, fresh.store⟩ := by
      rw [← houtcome]
    have hgraft : (fresh.graft store).outcome = .ok (freshUnit.map store.shift.definition) := by
      simp only [Parsed.graft, houtcome]
    rw [hgraft]
    refine ⟨fun e => ⟨fun h => (by cases h), fun h => (by cases h)⟩, fun unit hunit => ?_⟩
    cases hunit
    exact ⟨_, rfl, standsBehind_graft hfresh store⟩

/-- A unit of a function and a memory region, behind another unit in the second generation. -/
theorem parseChars_independent_shared :
    let store := (parseChars {} (Store.empty 100).clear "func f { 1 drop } mem m 8".toList).store
    let source := "mem buffer 8 func main { if (buffer) { 2 } elif [0] { main call } }".toList
    let fresh := parseChars {} (Store.empty 50) source
    let parsed := parseChars {} store source
    store.size = 5 ∧ store.generation = 1 ∧ fresh.store.size ≤ store.free ∧
      fresh.outcome = .ok [⟨0, 0⟩, ⟨1, 0⟩] ∧ ∃ unit, parsed.outcome = .ok unit ∧
        StandsBehind store fresh.store parsed.store [⟨0, 0⟩, ⟨1, 0⟩] unit := by
  intro store source fresh parsed
  obtain ⟨hsize, hgeneration, hroom, hfresh⟩ : store.size = 5 ∧ store.generation = 1 ∧
      fresh.store.size ≤ store.free ∧ fresh.outcome = .ok [⟨0, 0⟩, ⟨1, 0⟩] := by decide +kernel
  refine ⟨hsize, hgeneration, hroom, hfresh, ?_⟩
  have hlimit : ∀ e, fresh.outcome = .error e → e.cause.isNodeLimit = false := fun e he => by
    rw [hfresh] at he
    cases he
  exact (parseChars_independent {} store source 50 hlimit hroom).2 _ hfresh

end StackCompiler
