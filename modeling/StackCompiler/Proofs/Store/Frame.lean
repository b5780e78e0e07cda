import StackCompiler.Proofs.Store.Reading
import StackCompiler.Proofs.Store.Transport

/-!
# Units that share a store

Parsing puts its nodes behind those that a store holds, and changes no other node. So whatever the
text, and whether or not it is accepted, the nodes that were there before are as they were, and the
units that were parsed before have the same outline and the same code.

* `ParsedInto`: a unit that was parsed into a store.
* `Undisturbed`: nodes and units that stay as they were.
* **`parseChars_undisturbed`**: parsing a text.
-/

namespace StackCompiler

/-! ## Statements -/

/-- **A unit that was parsed into a store** and is as parsing left it. If the store was cleared in the
meantime, it is of another generation, and nothing of the unit is left. -/
def ParsedInto (store : Store) (unit : List DefId) : Prop :=
  ∃ options start source after, parseChars options start source = ⟨.ok unit, after⟩ ∧
    (store.generation ≠ start.generation ∨
      (∀ id ∈ start.allocated after, store.block? id = after.block? id) ∧
        ∀ id ∈ unit, store.def? id = after.def? id)

/-- **What a store holds is undisturbed**: every handle that resolves stands for the same node
afterwards, and no unit looks different. -/
structure Undisturbed (before after : Store) : Prop where
  blocks : ∀ id block, before.block? id = some block → after.block? id = some block
  definitions : ∀ id d, before.def? id = some d → after.def? id = some d
  generation : after.generation = before.generation
  maxNodes : after.maxNodes = before.maxNodes
  units : ∀ unit, ParsedInto before unit → ParsedInto after unit ∧
    outline after unit = outline before unit ∧
    ∀ options device, emitUnit options after unit device = emitUnit options before unit device

/-! ## Nodes -/

/-- Every handle stays the same. -/
def Renaming.same : Renaming := ⟨id, id⟩

theorem Block.rename_same (block : Block) : block.rename .same = block := by
  cases block <;> simp [rename, Renaming.same]

theorem Definition.rename_same (d : Definition) : d.rename .same = d := by
  obtain ⟨_, _, _, _, _, body⟩ := d
  cases body <;> rfl

namespace Store

variable {base store : Store}

/-- Putting nodes behind a store keeps the blocks in front of them. -/
theorem block?_graft_left (hgeneration : store.generation = 0) {id : BlockId} {block : Block}
    (h : base.block? id = some block) : (base.graft store).block? id = some block := by
  obtain ⟨hid, hget⟩ := block?_eq_some.mp h
  have hlt := (Array.getElem?_eq_some_iff.mp hget).1
  refine block?_eq_some.mpr ⟨by simp [graft, hgeneration, hid], ?_⟩
  rw [graft, Array.getElem?_append_left hlt, hget]

theorem def?_graft_left (hgeneration : store.generation = 0) {id : DefId} {d : Definition}
    (h : base.def? id = some d) : (base.graft store).def? id = some d := by
  obtain ⟨hid, hget⟩ := def?_eq_some.mp h
  have hlt := (Array.getElem?_eq_some_iff.mp hget).1
  refine def?_eq_some.mpr ⟨by simp [graft, hgeneration, hid], ?_⟩
  rw [graft, Array.getElem?_append_left hlt, hget]

end Store

/-- **A store has the nodes that it had before parsing.** -/
theorem parseChars_carries (options : ParseOptions) (store : Store) (source : List Char) :
    Carries .same store (parseChars options store source).store := by
  have hstore : (parseChars options store source).store =
      store.graft (parseChars options (.empty store.free) source).store :=
    congrArg Parsed.store (parseChars_graft options store source)
  have hgeneration := (parseChars_grown options (.empty store.free) source).generation
  rw [hstore]
  refine ⟨fun hblock => ?_, fun hd => ?_, ?_⟩
  · rw [Block.rename_same]
    exact Store.block?_graft_left hgeneration hblock
  · rw [Definition.rename_same]
    exact Store.def?_graft_left hgeneration hd
  · simp [Store.graft]

/-! ## Units -/

/-- The handles of a unit are of the generation in which it was parsed. -/
theorem UnitTree.generation_eq {before after : Store} {unit : List DefId} {chunks : List Chunk}
    (h : UnitTree before after unit chunks) {id : DefId} (hid : id ∈ unit) :
    id.generation = before.generation := by
  obtain ⟨d, hd⟩ := h.exists_def hid
  exact (Store.def?_eq_some.mp hd).1.trans h.generation

section Stale

variable {store store' : Store} {unit : List DefId}

/-- A unit of which nothing is left has one outline. -/
theorem outline_of_stale (h : ∀ id ∈ unit, store.def? id = none)
    (h' : ∀ id ∈ unit, store'.def? id = none) : outline store' unit = outline store unit := by
  have hlines : outlineLines store' unit = outlineLines store unit := by
    simp only [outlineLines]
    congr 1
    refine List.flatMap_congr fun id hid => ?_
    rw [h id hid, h' id hid]
  rw [outline, outline, hlines]

theorem emitUnit_of_stale (h : ∀ id ∈ unit, store.def? id = none)
    (h' : ∀ id ∈ unit, store'.def? id = none) (options : EmitOptions) (device : Device) :
    emitUnit options store' unit device = emitUnit options store unit device := by
  have hdef (store : Store) (levels : Nat) {id : DefId} (hid : store.def? id = none) :
      lowerDef options store levels id = .fail (.danglingDefinition id.index) none := by
    rw [lowerDef, getDef, hid]
    rfl
  have hdefs : unit.forM (lowerDef options store' (emitLevels store' device)) =
      unit.forM (lowerDef options store (emitLevels store device)) := by
    have hmap : (unit.map id).forM (lowerDef options store' (emitLevels store' device)) =
        unit.forM (lowerDef options store (emitLevels store device)) :=
      forM_map_congr fun id hid => (hdef store' _ (h' id hid)).trans (hdef store _ (h id hid)).symm
    rwa [List.map_id] at hmap
  rw [emitUnit, emitUnit, lowerUnit, lowerUnit, hdefs]

end Stale

/-- **Units are undisturbed where nodes are.** -/
theorem ParsedInto.undisturbed {before after : Store} (hcarries : Carries .same before after)
    (hgeneration : after.generation = before.generation) {unit : List DefId}
    (h : ParsedInto before unit) : ParsedInto after unit ∧
      outline after unit = outline before unit ∧
      ∀ options device, emitUnit options after unit device = emitUnit options before unit device := by
  obtain ⟨options, start, source, parsed, hparsed, hkept⟩ := h
  obtain ⟨chunks, htree⟩ := unitTree_of_parseChars hparsed
  rcases hkept with hstale | ⟨hblocks, hdefs⟩
  · have hnone {store : Store} (hstore : store.generation ≠ start.generation) :
        ∀ id ∈ unit, store.def? id = none := fun id hid => by
      rw [Store.def?, if_neg fun hid' => hstore (hid'.symm.trans (htree.generation_eq hid))]
    have hafter : after.generation ≠ start.generation := hgeneration ▸ hstale
    exact ⟨⟨options, start, source, parsed, hparsed, .inl hafter⟩,
      outline_of_stale (hnone hstale) (hnone hafter),
      emitUnit_of_stale (hnone hstale) (hnone hafter)⟩
  · have hunit := htree.holdsUnit hblocks hdefs
    have hsame : unit.map Renaming.same.definition = unit := List.map_id unit
    have houtline := hcarries.outline_eq hunit
    have hcode := hcarries.emitUnit_eq hunit
    rw [hsame] at houtline hcode
    refine ⟨⟨options, start, source, parsed, hparsed, .inr ⟨fun id hid => ?_, fun id hid => ?_⟩⟩,
      houtline, hcode⟩
    · obtain ⟨block, hblock⟩ := htree.allocated_resolves hid
      have hbefore := (hblocks id hid).trans hblock
      rw [hblock, ← block.rename_same]
      exact hcarries.block hbefore
    · obtain ⟨i, hi⟩ := List.mem_iff_getElem?.mp hid
      obtain ⟨-, d, -, hd, -⟩ := htree.definition_at hi
      have hbefore := (hdefs id hid).trans hd
      rw [hd, ← d.rename_same]
      exact hcarries.definition hbefore

/-- **Parsing disturbs nothing that a store holds**, whether or not the text is accepted. A unit that
is accepted is one more unit that later parsing leaves undisturbed. -/
theorem parseChars_undisturbed (options : ParseOptions) (store : Store) (source : List Char) :
    Undisturbed store (parseChars options store source).store ∧
      ∀ unit, (parseChars options store source).outcome = .ok unit →
        ParsedInto (parseChars options store source).store unit := by
  have hcarries := parseChars_carries options store source
  have hgrown := parseChars_grown options store source
  refine ⟨⟨fun id block hblock => ?_, fun id d hd => ?_, hgrown.generation, hgrown.maxNodes,
    fun unit hunit => hunit.undisturbed hcarries hgrown.generation⟩, fun unit houtcome => ?_⟩
  · rw [← block.rename_same]
    exact hcarries.block hblock
  · rw [← d.rename_same]
    exact hcarries.definition hd
  · exact ⟨options, store, source, _, by rw [← houtcome], .inr ⟨fun _ _ => rfl, fun _ _ => rfl⟩⟩

/-- A unit keeps its outline while a text that is refused leaves some nodes behind it. -/
theorem undisturbed_refused :
    let first := parseChars {} (Store.empty 100) "func f { if (1) { 2 } else { f call } }".toList
    let second := parseChars {} first.store "func g { loop (g) { 3 } h }".toList
    first.outcome = .ok [⟨0, 0⟩] ∧ second.outcome.isOk = false ∧
      first.store.size < second.store.size ∧
      outline second.store [⟨0, 0⟩] = outline first.store [⟨0, 0⟩] := by
  refine ⟨by decide +kernel, by decide +kernel, by decide +kernel, ?_⟩
  have hparsed := (parseChars_undisturbed {} (Store.empty 100)
    "func f { if (1) { 2 } else { f call } }".toList).2 [⟨0, 0⟩] (by decide +kernel)
  exact ((parseChars_undisturbed {} _ "func g { loop (g) { 3 } h }".toList).1.units _ hparsed).2.1

end StackCompiler
