import StackCompiler.Proofs.Grammar.Recognition
import StackCompiler.Proofs.Tree.Growth

/-!
# The tree of a unit

A text that is accepted leaves one chunk for every definition. Together the chunks are all that
parsing has added to the store.

* `AddsChunks`: chunks that are added one after the other.
* `UnitTree`: what the store holds after parsing, chunk by chunk.
* **`unitTree_of_parseChars`**, `unit_of_parseChars`: the tree of an accepted text, and its handles.
-/

namespace StackCompiler

/-! ## Chunks in a row -/

/-- Chunks are added one after the other. -/
inductive AddsChunks : Workspace → List Chunk → Workspace → Prop where
  | nil (w : Workspace) : AddsChunks w [] w
  | cons {w w₁ w' : Workspace} {chunk : Chunk} {chunks : List Chunk} (hchunk : AddsChunk w w₁ chunk)
      (hchunks : AddsChunks w₁ chunks w') : AddsChunks w (chunk :: chunks) w'

/-- What all chunks consist of. -/
def Chunk.all : List Chunk → Contents
  | [] => .empty
  | chunk :: chunks => chunk.contents ++ Chunk.all chunks

/-- The names of chunks, in a store that has some definitions already. -/
def Chunk.symbols (store : Store) (chunks : List Chunk) : List (String × DefId) :=
  chunks.mapIdx fun i chunk =>
    (chunk.definition.ident.text, ⟨store.defs.size + i, store.generation⟩)

namespace Chunk

theorem nodes_all (chunks : List Chunk) :
    (all chunks).nodes = chunks.flatMap fun chunk => chunk.contents.nodes := by
  induction chunks with
  | nil => rfl
  | cons chunk chunks ih => rw [all, Contents.nodes_append, ih, List.flatMap_cons]

theorem mem_nodes_all {chunks : List Chunk} {p : BlockId × Block} :
    p ∈ (all chunks).nodes ↔ ∃ chunk ∈ chunks, p ∈ chunk.contents.nodes := by
  rw [nodes_all, List.mem_flatMap]

end Chunk

namespace AddsChunks

variable {w w' : Workspace} {chunks : List Chunk}

theorem grows (h : AddsChunks w chunks w') : Grows w w' (Chunk.all chunks) := by
  induction h with
  | nil w => exact .refl w
  | cons hchunk _ ih => exact hchunk.toGrows.append ih

theorem defs (h : AddsChunks w chunks w') : w'.store.defs.toList.map Definition.marked =
    w.store.defs.toList.map Definition.marked ++
      chunks.map fun chunk => chunk.definition.marked := by
  induction h with
  | nil w => exact (List.append_nil _).symm
  | cons hchunk _ ih =>
    rw [ih, hchunk.defs, List.append_assoc]
    rfl

theorem symbols (h : AddsChunks w chunks w') :
    w'.symbols = w.symbols ++ Chunk.symbols w.store chunks := by
  induction h with
  | nil w => exact (List.append_nil _).symm
  | @cons w w₁ w' chunk chunks hchunk _ ih =>
    have hsize : w₁.store.defs.size = w.store.defs.size + 1 := by
      have := congrArg List.length hchunk.defs
      simpa using this
    rw [ih, hchunk.symbols, List.append_assoc, Chunk.symbols, Chunk.symbols, List.mapIdx_cons,
      hsize, hchunk.generation]
    simp only [Store.nextDef, Nat.add_assoc, Nat.add_comm 1, Nat.add_zero, List.cons_append,
      List.nil_append]

/-- The workspace right before and right after a chunk. -/
theorem split (h : AddsChunks w chunks w') {i : Nat} {chunk : Chunk}
    (hi : chunks[i]? = some chunk) :
    ∃ w₁ w₂, AddsChunks w (chunks.take i) w₁ ∧ AddsChunk w₁ w₂ chunk ∧
      AddsChunks w (chunks.take (i + 1)) w₂ := by
  induction h generalizing i with
  | nil w => simp at hi
  | @cons w w₁ w' first rest hchunk hchunks ih =>
    cases i with
    | zero =>
      obtain rfl : first = chunk := by simpa using hi
      exact ⟨w, w₁, .nil w, hchunk, .cons hchunk (.nil w₁)⟩
    | succ i =>
      obtain ⟨w₂, w₃, hbefore, hat, hbehind⟩ := ih (by simpa using hi)
      exact ⟨w₂, w₃, .cons hchunk hbefore, hat, .cons hchunk hbehind⟩

/-- The definition of a chunk, which may have become used. -/
theorem def?_eq (h : AddsChunks w chunks w') {i : Nat} {chunk : Chunk}
    (hi : chunks[i]? = some chunk) :
    (w'.store.def? ⟨w.store.defs.size + i, w.store.generation⟩).map Definition.marked =
      some chunk.definition.marked := by
  have hget := congrArg (·[w.store.defs.size + i]?) h.defs
  rw [Store.def?, if_pos h.grows.generation.symm]
  simpa [List.getElem?_append_right, hi] using hget

end AddsChunks

/-- A name stands for one of the chunks up to a place. -/
def StandsForChunk (unit : List DefId) (chunks : List Chunk) (i : Nat) (token : Token)
    (target : DefId) (chunk : Chunk) : Prop :=
  ∃ j ≤ i, chunks[j]? = some chunk ∧ unit[j]? = some target ∧
    chunk.definition.ident.text = token.text

/-- **A leaf of a chunk fits the unit.** -/
def Leaf.FitsUnit (unit : List DefId) (chunks : List Chunk) (i : Nat) : Leaf → Prop
  | .expression token => token.kind.isExpression = true ∧ token.Faithful
  | .reference token target => token.IsName ∧
    ∃ chunk, StandsForChunk unit chunks i token target chunk
  | .call _ _ token target => token.IsName ∧
    ∃ chunk, StandsForChunk unit chunks i token target chunk ∧ chunk.definition.isFunction = true
  | .cast .. | .assembly _ => True

/-- **A chunk of a unit in a store.** -/
structure ChunkAt (store : Store) (unit : List DefId) (chunks : List Chunk) (i : Nat)
    (chunk : Chunk) : Prop where
  definition : ∃ id d, unit[i]? = some id ∧ store.def? id = some d ∧
    d.marked = chunk.definition.marked
  index : chunk.definition.index = i
  fits : chunk.Fits
  name : chunk.definition.ident.IsName
  leaves : ∀ l ∈ chunk.contents.leaves, l.FitsUnit unit chunks i

/-- **What parsing has added to a store**, chunk by chunk. -/
structure UnitTree (before after : Store) (unit : List DefId) (chunks : List Chunk) : Prop where
  blocks : after.blocks.toList = before.blocks.toList ++ (Chunk.all chunks).nodes.map Prod.snd
  ids : (Chunk.all chunks).ids = before.handles (Chunk.all chunks).nodes.length
  generation : after.generation = before.generation
  stored : (Chunk.all chunks).Stored after
  numbers : (Chunk.all chunks).numbers = List.range (Chunk.all chunks).numbers.length
  length : unit.length = chunks.length
  chunk : ∀ i chunk, chunks[i]? = some chunk → ChunkAt after unit chunks i chunk

namespace UnitTree

variable {before after : Store} {unit : List DefId} {chunks : List Chunk}

theorem stored_chunk (h : UnitTree before after unit chunks) {chunk : Chunk}
    (hchunk : chunk ∈ chunks) : chunk.contents.Stored after :=
  fun p hp => h.stored p (Chunk.mem_nodes_all.mpr ⟨chunk, hchunk, hp⟩)

/-- The definition at a place of the unit. -/
theorem definition_at (h : UnitTree before after unit chunks) {i : Nat} {id : DefId}
    (hunit : unit[i]? = some id) :
    ∃ chunk d, chunks[i]? = some chunk ∧ after.def? id = some d ∧
      d.marked = chunk.definition.marked ∧ d.index = i := by
  have hlt : i < chunks.length := h.length ▸ (List.getElem?_eq_some_iff.mp hunit).1
  have hi : chunks[i]? = some chunks[i] := List.getElem?_eq_getElem hlt
  obtain ⟨⟨id', d, hid', hd, hmarked⟩, hindex, -⟩ := h.chunk i _ hi
  rw [hunit] at hid'
  cases hid'
  refine ⟨_, d, hi, hd, hmarked, ?_⟩
  rw [← hindex]
  exact (Definition.mk.inj hmarked).2.2.2.2.1

/-- Every handle of a unit stands for a definition. -/
theorem exists_def (h : UnitTree before after unit chunks) {id : DefId} (hid : id ∈ unit) :
    ∃ d, after.def? id = some d := by
  obtain ⟨i, hi⟩ := List.mem_iff_getElem?.mp hid
  obtain ⟨-, d, -, hd, -⟩ := h.definition_at hi
  exact ⟨d, hd⟩

theorem name_eq (h : UnitTree before after unit chunks) {i : Nat} {chunk : Chunk} {d : Definition}
    (hchunk : chunks[i]? = some chunk) (hmarked : d.marked = chunk.definition.marked) :
    d.name = chunk.definition.ident.text := by
  have hident : d.ident = chunk.definition.ident := (Definition.mk.inj hmarked).2.1
  rw [Definition.name, hident, (h.chunk i chunk hchunk).name.nameText]

/-- What a name stands for. -/
theorem target_at (h : UnitTree before after unit chunks) {i : Nat} {token : Token}
    {target : DefId} {chunk : Chunk} (hstands : StandsForChunk unit chunks i token target chunk) :
    ∃ (j : Nat) (d : Definition), unit[j]? = some target ∧ after.def? target = some d ∧
      d.marked = chunk.definition.marked ∧ d.name = token.text ∧ d.index ≤ i := by
  obtain ⟨j, hji, hj, hunit, htext⟩ := hstands
  obtain ⟨chunk', d, hj', hd, hmarked, hindex⟩ := h.definition_at hunit
  rw [hj] at hj'
  cases hj'
  exact ⟨j, d, hunit, hd, hmarked, (h.name_eq hj hmarked).trans htext, hindex ▸ hji⟩

/-- The blocks of a function of a unit. -/
theorem function_at (h : UnitTree before after unit chunks) {id : DefId} {d : Definition}
    {f : Function} (hid : id ∈ unit) (hd : after.def? id = some d) (hf : d.body = .function f) :
    ∃ (i : Nat) (chunk : Chunk) (head : ScopeHead) (inside : Forest), unit[i]? = some id ∧
      chunks[i]? = some chunk ∧ chunk.body = some (head, inside) ∧ f.body = head.id := by
  obtain ⟨i, hi⟩ := List.mem_iff_getElem?.mp hid
  obtain ⟨chunk, d', hchunk, hd', hmarked, -⟩ := h.definition_at hi
  rw [hd] at hd'
  cases hd'
  have hfits := (h.chunk i chunk hchunk).fits
  have hsame : d.body = chunk.definition.body := (Definition.mk.inj hmarked).2.2.2.2.2
  rw [Chunk.Fits, ← hsame, hf] at hfits
  cases hbody : chunk.body with
  | none =>
    rw [hbody] at hfits
    exact hfits.elim
  | some tree =>
    rw [hbody] at hfits
    exact ⟨i, chunk, tree.1, tree.2, hi, hchunk, hbody, hfits⟩

end UnitTree

/-- **Definitions in a row leave their chunks behind.** -/
theorem addsChunks_of_build {options : ParseOptions} {ds : List DefinitionPhrase} {w w' : Workspace}
    {u : Unit} (hfaithful : ∀ t ∈ ds.flatMap DefinitionPhrase.tokens, t.Faithful)
    (h : ds.forM (DefinitionPhrase.build options) w = .ok u w') :
    ∃ chunks, AddsChunks w chunks w' := by
  induction ds generalizing w with
  | nil =>
    obtain ⟨-, rfl⟩ := pure_eq_ok.mp h
    exact ⟨[], .nil w⟩
  | cons d ds ih =>
    obtain ⟨_, w₁, h₁, h⟩ := bind_eq_ok.mp h
    obtain ⟨hd, hds⟩ := List.forall_mem_append.mp hfaithful
    obtain ⟨chunk, hchunk⟩ := DefinitionPhrase.addsChunk hd h₁
    obtain ⟨chunks, hchunks⟩ := ih hds h
    exact ⟨chunk :: chunks, .cons hchunk hchunks⟩

/-! ## Units -/

section Units

variable {store : Store} {w' : Workspace} {chunks : List Chunk}

/-- A name that is found stands for a chunk. -/
theorem standsForChunk_of_lookup (h : AddsChunks ⟨store, [], 0⟩ chunks w') {i : Nat}
    {w : Workspace} (hw : AddsChunks ⟨store, [], 0⟩ (chunks.take (i + 1)) w) {token : Token}
    {target : DefId} (hlookup : w.symbols.lookup token.text = some target) :
    ∃ chunk, StandsForChunk (w'.symbols.map Prod.snd) chunks i token target chunk ∧
      (w.store.def? target).map Definition.marked = some chunk.definition.marked := by
  have hmem : (token.text, target) ∈ w.symbols := by
    obtain ⟨l₁, l₂, heq, -⟩ := List.lookup_eq_some_iff.mp hlookup
    rw [heq]
    simp
  rw [hw.symbols, List.nil_append] at hmem
  obtain ⟨j, hj⟩ := List.mem_iff_getElem?.mp hmem
  rw [Chunk.symbols, List.getElem?_mapIdx] at hj
  obtain ⟨chunk, hchunk, heq⟩ := Option.map_eq_some_iff.mp hj
  obtain ⟨htext, rfl⟩ := Prod.mk.inj heq
  have hlt : j < i + 1 := by
    have := (List.getElem?_eq_some_iff.mp hchunk).1
    rw [List.length_take] at this
    omega
  have hat : chunks[j]? = some chunk := by
    rwa [List.getElem?_take_of_lt hlt] at hchunk
  refine ⟨chunk, ⟨j, Nat.le_of_lt_succ hlt, hat, ?_, htext⟩, hw.def?_eq hchunk⟩
  rw [h.symbols, List.nil_append, Chunk.symbols]
  simp [hat]

theorem Leaf.fitsUnit (h : AddsChunks ⟨store, [], 0⟩ chunks w') {i : Nat}
    {w : Workspace} (hw : AddsChunks ⟨store, [], 0⟩ (chunks.take (i + 1)) w) {l : Leaf}
    (hl : l.Fits w) : l.FitsUnit (w'.symbols.map Prod.snd) chunks i := by
  cases l with
  | expression token => exact hl
  | reference token target =>
    obtain ⟨hname, hlookup⟩ := hl
    obtain ⟨chunk, hchunk, -⟩ := standsForChunk_of_lookup h hw hlookup
    exact ⟨hname, chunk, hchunk⟩
  | call location callee token target =>
    obtain ⟨hname, hlookup, hfunction⟩ := hl
    obtain ⟨chunk, hchunk, hdef⟩ := standsForChunk_of_lookup h hw hlookup
    refine ⟨hname, chunk, hchunk, ?_⟩
    obtain ⟨d, hd, hmarked⟩ := Option.map_eq_some_iff.mp hdef
    rw [hd] at hfunction
    have hsame := congrArg Definition.isFunction hmarked
    exact hsame.symm.trans (Option.some.inj hfunction)
  | cast location types => trivial
  | assembly token => trivial

/-- **Chunks that are added to a store make a unit.** -/
theorem AddsChunks.unitTree (h : AddsChunks ⟨store, [], 0⟩ chunks w') :
    UnitTree store w'.store (w'.symbols.map Prod.snd) chunks := by
  have hgrows := h.grows
  refine ⟨hgrows.blocks, hgrows.ids, hgrows.generation, hgrows.stored, ?_, ?_, ?_⟩
  · rw [List.range_eq_range']
    exact hgrows.numbers
  · rw [h.symbols, Chunk.symbols]
    simp
  · intro i chunk hi
    obtain ⟨w₁, w₂, hbefore, hat, hbehind⟩ := h.split hi
    refine ⟨?_, ?_, hat.fits, hat.name, fun l hl => Leaf.fitsUnit h hbehind (hat.leaves l hl)⟩
    · obtain ⟨d, hd, hmarked⟩ := Option.map_eq_some_iff.mp (h.def?_eq hi)
      refine ⟨_, d, ?_, hd, hmarked⟩
      rw [h.symbols, List.nil_append, Chunk.symbols]
      simp [hi]
    · rw [hat.index, hbefore.symbols, Chunk.symbols]
      have := (List.getElem?_eq_some_iff.mp hi).1
      simp
      omega

end Units

/-- The tokens of the definitions that a text derives from were read from it. -/
theorem Derives.faithful {source : List Char} {ds : List DefinitionPhrase} (h : Derives source ds) :
    ∀ t ∈ ds.flatMap DefinitionPhrase.tokens, t.Faithful := by
  obtain ⟨last, htokenize, -⟩ := h
  have hfaithful := (Lexer.run_ofChars_whole source).faithful
  rw [(tokenize_eq_ok.mp htokenize).2] at hfaithful
  exact fun t ht => hfaithful t (List.mem_append_left _ ht)

/-- **An accepted text leaves chunks behind**, one for every definition. -/
theorem addsChunks_of_parseChars {options : ParseOptions} {store after : Store}
    {source : List Char} {unit : List DefId}
    (h : parseChars options store source = ⟨.ok unit, after⟩) :
    ∃ (ds : List DefinitionPhrase) (w' : Workspace) (chunks : List Chunk),
      ds.forM (DefinitionPhrase.build options) ⟨store, [], 0⟩ = .ok () w' ∧
      AddsChunks ⟨store, [], 0⟩ chunks w' ∧ unit = w'.symbols.map Prod.snd ∧ after = w'.store := by
  obtain ⟨ds, w', hderives, hbuild, hunit, hafter⟩ := parseChars_eq_ok.mp h
  obtain ⟨chunks, hchunks⟩ := addsChunks_of_build hderives.faithful hbuild
  exact ⟨ds, w', chunks, hbuild, hchunks, hunit, hafter⟩

/-- **An accepted text leaves the tree of a unit behind.** -/
theorem unitTree_of_parseChars {options : ParseOptions} {store after : Store} {source : List Char}
    {unit : List DefId} (h : parseChars options store source = ⟨.ok unit, after⟩) :
    ∃ chunks, UnitTree store after unit chunks := by
  obtain ⟨-, w', chunks, -, hchunks, rfl, rfl⟩ := addsChunks_of_parseChars h
  exact ⟨chunks, hchunks.unitTree⟩

/-- **A unit consists of all definitions that parsing has added**, in order. -/
theorem unit_of_parseChars {options : ParseOptions} {store after : Store} {source : List Char}
    {unit : List DefId} (h : parseChars options store source = ⟨.ok unit, after⟩) :
    after.defs.size = store.defs.size + unit.length ∧
      ∀ i < unit.length, unit[i]? = some ⟨store.defs.size + i, store.generation⟩ := by
  obtain ⟨-, w', chunks, -, hchunks, rfl, rfl⟩ := addsChunks_of_parseChars h
  have hsymbols : w'.symbols = Chunk.symbols store chunks := hchunks.symbols
  have hlength : (w'.symbols.map Prod.snd).length = chunks.length := by
    rw [hsymbols, Chunk.symbols, List.length_map, List.length_mapIdx]
  have hsize := congrArg List.length hchunks.defs
  simp only [List.length_map, List.length_append, Array.length_toList] at hsize
  refine ⟨by rw [hlength, hsize], fun i hi => ?_⟩
  rw [hlength] at hi
  rw [hsymbols, Chunk.symbols]
  simp [hi]

/-- No definition stands twice in a unit. -/
theorem nodup_of_parseChars {options : ParseOptions} {store after : Store} {source : List Char}
    {unit : List DefId} (h : parseChars options store source = ⟨.ok unit, after⟩) : unit.Nodup := by
  refine List.pairwise_iff_getElem.mpr fun i j hi hj hij heq => ?_
  have hsome : unit[i]? = unit[j]? := by
    rw [List.getElem?_eq_getElem hi, List.getElem?_eq_getElem hj, heq]
  rw [(unit_of_parseChars h).2 i hi, (unit_of_parseChars h).2 j hj] at hsome
  have hindex := (DefId.mk.inj (Option.some.inj hsome)).1
  omega

/-- The definitions of a unit are new. -/
theorem size_defs_le_of_parseChars {options : ParseOptions} {store after : Store}
    {source : List Char} {unit : List DefId}
    (h : parseChars options store source = ⟨.ok unit, after⟩) {id : DefId} (hid : id ∈ unit) :
    store.defs.size ≤ id.index := by
  obtain ⟨i, hi⟩ := List.mem_iff_getElem?.mp hid
  rw [(unit_of_parseChars h).2 i (List.getElem?_eq_some_iff.mp hi).1] at hi
  rw [← Option.some.inj hi]
  exact Nat.le_add_right _ _

end StackCompiler
