import Mathlib.Data.List.Nodup
import StackCompiler.Proofs.Grammar.Invariant
import StackCompiler.Proofs.Tree.Unit

/-!
# Used definitions and distinct names

A definition that some block refers to is marked as used, and so is the function the program starts
with. No two definitions of a unit have the same name.

* `Workspace.Tracks`: targets of references are used.
* **`Workspace.Tracks.invariant`**: building keeps track of them.
* `UnitUsage`, **`unitUsage_of_parseChars`**: what parsing says about the definitions of a unit.
-/

namespace StackCompiler

/-! ## Workspaces -/

/-- **The targets of the references that were added to a store are used**, and so are the functions
that were added for the program to start with. -/
structure Workspace.Tracks (start : Store) (w : Workspace) : Prop where
  known : ∀ p ∈ w.symbols, ∃ d, w.store.def? p.2 = some d
  targets : ∀ i token target, start.blocks.size ≤ i →
    w.store.blocks[i]? = some (.reference token target) →
    ∃ d, w.store.def? target = some d ∧ d.used = true
  entries : ∀ i d, start.defs.size ≤ i → w.store.defs[i]? = some d → d.isEntry = true →
    d.used = true

namespace Workspace.Tracks

variable {start : Store} {w : Workspace}

theorem init (start : Store) : Tracks start ⟨start, [], 0⟩ where
  known _ hp := absurd hp List.not_mem_nil
  targets i _ _ hi hblock := by
    have := (Array.getElem?_eq_some_iff.mp hblock).1
    dsimp only at this
    omega
  entries i _ hi hd _ := by
    have := (Array.getElem?_eq_some_iff.mp hd).1
    dsimp only at this
    omega

/-- One more block, which refers to a used definition if it refers to any. -/
theorem withBlock (h : w.Tracks start) {block : Block}
    (hblock : ∀ token target, block = .reference token target →
      ∃ d, w.store.def? target = some d ∧ d.used = true) :
    Tracks start { w with store := w.store.withBlock block } where
  known := h.known
  targets i token target hi hget := by
    simp only [Store.withBlock, Array.getElem?_push] at hget
    split at hget
    · cases hget
      exact hblock token target rfl
    · exact h.targets i token target hi hget
  entries := h.entries

/-- A changed block, which becomes no reference. -/
theorem modifyBlock (h : w.Tracks start) (id : BlockId) {f : Block → Block}
    (hf : ∀ block, (f block).isReference = true → f block = block) :
    Tracks start { w with store := w.store.modifyBlock id f } := by
  have hdef := Store.def?_modifyBlock w.store id f
  refine ⟨?_, fun i token target hi hget => ?_, fun i d hi hget => ?_⟩
  · rw [hdef]
    exact h.known
  · rw [hdef]
    rw [Store.modifyBlock] at hget
    split at hget
    · simp only [Array.getElem?_modify] at hget
      split at hget
      · obtain ⟨block, hget, hblock⟩ := Option.map_eq_some_iff.mp hget
        rw [hf block (by rw [hblock]; rfl)] at hblock
        exact h.targets i token target hi (hblock ▸ hget)
      · exact h.targets i token target hi hget
    · exact h.targets i token target hi hget
  · rw [Store.modifyBlock] at hget
    split at hget
    · exact h.entries i d hi hget
    · exact h.entries i d hi hget

/-- A definition that becomes used. -/
theorem markUsed (h : w.Tracks start) (target : DefId) : (w.markUsed target).Tracks start := by
  have hdef (id : DefId) (d : Definition) (hd : w.store.def? id = some d) :
      ∃ d', (w.markUsed target).store.def? id = some d' ∧ (d.used = true → d'.used = true) := by
    change ∃ d', (w.store.modifyDef target _).def? id = some d' ∧ _
    rw [Store.def?_modifyDef, hd]
    split
    · exact ⟨_, rfl, fun _ => rfl⟩
    · exact ⟨d, rfl, fun h => h⟩
  refine ⟨fun p hp => ?_, fun i token target' hi hget => ?_, fun i d hi hget hentry => ?_⟩
  · obtain ⟨d, hd⟩ := h.known p hp
    obtain ⟨d', hd', -⟩ := hdef _ _ hd
    exact ⟨d', hd'⟩
  · have hblocks : (w.markUsed target).store.blocks = w.store.blocks :=
      Store.blocks_modifyDef ..
    rw [hblocks] at hget
    obtain ⟨d, hd, hused⟩ := h.targets i token target' hi hget
    obtain ⟨d', hd', hused'⟩ := hdef _ _ hd
    exact ⟨d', hd', hused' hused⟩
  · change (w.store.modifyDef target _).defs[i]? = some d at hget
    rw [Store.modifyDef] at hget
    split at hget
    · simp only [Array.getElem?_modify] at hget
      split at hget
      · obtain ⟨d', -, rfl⟩ := Option.map_eq_some_iff.mp hget
        rfl
      · exact h.entries i d hi hget hentry
    · exact h.entries i d hi hget hentry

/-- One more definition, which is used if the program starts with it. -/
theorem withDef (h : w.Tracks start) {d : Definition} (name : String)
    (hd : d.isEntry = true → d.used = true) :
    Tracks start ⟨w.store.withDef d, w.symbols ++ [(name, w.store.nextDef)], w.nextIndex⟩ := by
  have hold (id : DefId) (d' : Definition) (hd' : w.store.def? id = some d') :
      (w.store.withDef d).def? id = some d' := by
    rw [Store.def?_withDef_of_lt _ _ (Store.index_lt_of_def? hd'), hd']
  refine ⟨fun p hp => ?_, fun i token target hi hget => ?_, fun i d' hi hget => ?_⟩
  · rcases List.mem_append.mp hp with hp | hp
    · obtain ⟨d', hd'⟩ := h.known p hp
      exact ⟨d', hold _ _ hd'⟩
    · obtain rfl := List.mem_singleton.mp hp
      exact ⟨d, Store.def?_withDef ..⟩
  · obtain ⟨d', hd', hused⟩ := h.targets i token target hi hget
    exact ⟨d', hold _ _ hd', hused⟩
  · simp only [Store.withDef, Array.getElem?_push] at hget
    split at hget
    · cases hget
      exact hd
    · exact h.entries i d' hi hget

theorem addReference (h : w.Tracks start) {name : Token} {target : DefId}
    (hlookup : w.symbols.lookup name.text = some target) :
    (w.withReference name target).Tracks start := by
  refine (h.markUsed target).withBlock fun token target' heq => ?_
  obtain ⟨rfl, rfl⟩ := Block.reference.inj heq
  have hmem : (name.text, target) ∈ w.symbols := by
    obtain ⟨l₁, l₂, hsymbols, -⟩ := List.lookup_eq_some_iff.mp hlookup
    simp [hsymbols]
  obtain ⟨d, hd⟩ := h.known _ hmem
  refine ⟨{ d with used := true }, ?_, rfl⟩
  change (w.store.modifyDef target _).def? target = _
  rw [Store.def?_modifyDef, if_pos rfl, hd]
  rfl

/-- **Building keeps track of what is used.** -/
theorem invariant (options : ParseOptions) (start : Store) :
    BuildInvariant options (Tracks start) where
  number hw := ⟨hw.known, hw.targets, hw.entries⟩
  block hblock hw := hw.withBlock fun token target heq => by
    rw [heq] at hblock
    cases hblock
  reference hlookup hw := hw.addReference hlookup
  change id _ hf hw := hw.modifyBlock id fun block href => hf block (.inr href)
  definition hd hw := hw.withDef _ fun hentry => hd.used.trans hentry

end Workspace.Tracks

/-! ## Leaves and names -/

/-- The definition that a leaf refers to. -/
def Leaf.target? : Leaf → Option DefId
  | .reference _ target | .call _ _ _ target => some target
  | _ => none

/-- The blocks of a leaf are blocks of its forest. -/
theorem Forest.exists_nodes_subset {F : Forest} {l : Leaf} (h : l ∈ F.contents.leaves) :
    ∃ id, l.nodes id ⊆ F.contents.nodes := by
  induction F with
  | nil => cases h
  | leaf id l' rest ih =>
    rcases List.mem_cons.mp h with rfl | h
    · exact ⟨id, List.subset_append_left _ _⟩
    · obtain ⟨id', hsub⟩ := ih h
      exact ⟨id', List.Subset.trans hsub (List.subset_append_right _ _)⟩
  | scope head inside rest ihi ihr =>
    simp only [contents, ScopeHead.node, Contents.leaves_append, Contents.leaves_node,
      List.append_nil, List.mem_append] at h
    rcases h with h | h
    · obtain ⟨id, hsub⟩ := ihi h
      exact ⟨id, fun p hp => by simp [hsub hp]⟩
    · obtain ⟨id, hsub⟩ := ihr h
      exact ⟨id, fun p hp => by simp [hsub hp]⟩
  | branch j c condition b body rest ihc ihb ihr | loop j c condition b body rest ihc ihb ihr =>
    simp only [contents, ScopeHead.node, Junction.branch, Junction.loop, Contents.leaves_append,
      Contents.leaves_node, Contents.leaves_number, List.append_nil, List.nil_append,
      List.mem_append] at h
    rcases h with (h | h) | h
    · obtain ⟨id, hsub⟩ := ihc h
      exact ⟨id, fun p hp => by simp [hsub hp]⟩
    · obtain ⟨id, hsub⟩ := ihb h
      exact ⟨id, fun p hp => by simp [hsub hp]⟩
    · obtain ⟨id, hsub⟩ := ihr h
      exact ⟨id, fun p hp => by simp [hsub hp]⟩
  | fork j c condition b body a o otherwise rest ihc ihb iho ihr =>
    simp only [contents, ScopeHead.node, Junction.branch, Junction.alternative,
      Contents.leaves_append, Contents.leaves_node, Contents.leaves_number, List.append_nil,
      List.nil_append, List.mem_append] at h
    rcases h with ((h | h) | h) | h
    · obtain ⟨id, hsub⟩ := ihc h
      exact ⟨id, fun p hp => by simp [hsub hp]⟩
    · obtain ⟨id, hsub⟩ := ihb h
      exact ⟨id, fun p hp => by simp [hsub hp]⟩
    · obtain ⟨id, hsub⟩ := iho h
      exact ⟨id, fun p hp => by simp [hsub hp]⟩
    · obtain ⟨id, hsub⟩ := ihr h
      exact ⟨id, fun p hp => by simp [hsub hp]⟩

theorem AddsChunks.names_nodup {w w' : Workspace} {chunks : List Chunk}
    (h : AddsChunks w chunks w') (hw : (w.symbols.map Prod.fst).Nodup) :
    (w'.symbols.map Prod.fst).Nodup := by
  induction h with
  | nil w => exact hw
  | cons hchunk _ ih =>
    refine ih ?_
    rw [hchunk.symbols, List.map_append]
    refine List.nodup_append.mpr ⟨hw, List.nodup_singleton _, ?_⟩
    rintro name hname _ hlast rfl
    obtain rfl := List.mem_singleton.mp hlast
    obtain ⟨p, hp, hpname⟩ := List.mem_map.mp hname
    have := List.lookup_eq_none_iff.mp hchunk.fresh p hp
    simp [hpname] at this

/-! ## Units -/

/-- **The definitions of a unit**: their names differ, and what is referred to is used. -/
structure UnitUsage (after : Store) (unit : List DefId) (chunks : List Chunk) : Prop where
  names : (chunks.map fun chunk => chunk.definition.ident.text).Nodup
  targets : ∀ chunk ∈ chunks, ∀ l ∈ chunk.contents.leaves, ∀ target, l.target? = some target →
    ∃ d, after.def? target = some d ∧ d.used = true
  entries : ∀ id ∈ unit, ∀ d, after.def? id = some d → d.isEntry = true → d.used = true

namespace UnitTree

variable {before after : Store} {unit : List DefId} {chunks : List Chunk}

/-- The number of a block of a unit is not one of the blocks before. -/
theorem size_le_index (h : UnitTree before after unit chunks) {chunk : Chunk}
    (hchunk : chunk ∈ chunks) {p : BlockId × Block} (hp : p ∈ chunk.contents.nodes) :
    before.blocks.size ≤ p.1.index := by
  have hmem : p.1 ∈ (Chunk.all chunks).ids :=
    List.mem_map_of_mem (Chunk.mem_nodes_all.mpr ⟨chunk, hchunk, hp⟩)
  rw [h.ids, Store.handles, List.mem_map] at hmem
  obtain ⟨i, hi, heq⟩ := hmem
  rw [← heq]
  exact (List.mem_range'_1.mp hi).1

/-- A leaf of a unit refers to a used definition. -/
theorem target_used (h : UnitTree before after unit chunks) {w : Workspace} (hw : w.Tracks before)
    (hafter : w.store = after) {chunk : Chunk} (hchunk : chunk ∈ chunks) {l : Leaf}
    (hl : l ∈ chunk.contents.leaves) {target : DefId} (htarget : l.target? = some target) :
    ∃ d, after.def? target = some d ∧ d.used = true := by
  obtain ⟨id, hsub⟩ : ∃ id, l.nodes id ⊆ chunk.contents.nodes := by
    unfold Chunk.contents at hl ⊢
    split at hl
    · obtain ⟨id, hsub⟩ := Forest.exists_nodes_subset hl
      exact ⟨id, List.Subset.trans hsub (List.subset_append_right _ _)⟩
    · cases hl
  obtain ⟨p, token, hp, hblock⟩ : ∃ (p : BlockId × Block) (token : Token), p ∈ l.nodes id ∧
      p.2 = .reference token target := by
    cases l with
    | reference token target' =>
      cases htarget
      exact ⟨_, token, .head _, rfl⟩
    | call location callee token target' =>
      cases htarget
      exact ⟨_, token, .head _, rfl⟩
    | _ => cases htarget
  have hstored := h.stored_chunk hchunk p (hsub hp)
  rw [hblock, ← hafter] at hstored
  rw [← hafter]
  exact hw.targets _ token target (h.size_le_index hchunk (hsub hp))
    (Store.block?_eq_some.mp hstored).2

end UnitTree

/-- **An accepted text leaves the tree of a unit behind**, whose definitions have different names and
are used if something refers to them. -/
theorem unitUsage_of_parseChars {options : ParseOptions} {store after : Store} {source : List Char}
    {unit : List DefId} (h : parseChars options store source = ⟨.ok unit, after⟩) :
    ∃ chunks, UnitTree store after unit chunks ∧ UnitUsage after unit chunks := by
  obtain ⟨ds, w', chunks, hbuild, hchunks, rfl, rfl⟩ := addsChunks_of_parseChars h
  have htracks := (Workspace.Tracks.invariant options store).definitions ds _ _ _ hbuild (.init store)
  have htree := hchunks.unitTree
  have hsymbols : w'.symbols = Chunk.symbols store chunks := hchunks.symbols
  refine ⟨chunks, htree, ?_, fun chunk hchunk l hl target htarget => ?_, fun id hid d hd => ?_⟩
  · have hnames := hchunks.names_nodup List.nodup_nil
    rw [hsymbols] at hnames
    convert hnames using 1
    exact List.ext_getElem? fun i => by simp [Chunk.symbols, Function.comp_def]
  · exact htree.target_used htracks rfl hchunk hl htarget
  · have hindex := size_defs_le_of_parseChars h hid
    exact htracks.entries id.index d hindex (Store.def?_eq_some.mp hd).2

end StackCompiler
