import StackCompiler.Proofs.Lowering.Capacity

/-!
# The code of literals

The code of a function is the code of its leaves, with marks, tests and jumps between them. So the code
of a literal stands as a whole inside the code of the function around it, wherever the literal stands
there.

* `Forest.lines_isInfix`: the lines of a leaf stand inside those of its forest.
* `Compilation.Contains`: a block inside a function.
* **`UnitTree.leaf_isInfix`**: the code of a literal stands inside the code of its function.
* `UnitTree.exists_contains`: every block lies inside a function.
* **`compile_eq_ok`**: what is written if all of it fits on the device.
-/

namespace StackCompiler

open Relation

/-! ## Lines -/

section Junctions

variable (remark : Remark) (c b : Piece) (index : Nat) (skip leave : Label)
  (condition body : List Line)

theorem condition_isInfix :
    condition <:+: junctionLines remark c b index skip leave condition body :=
  List.infix_append' _ _ _

theorem body_isInfix : body <:+: junctionLines remark c b index skip leave condition body :=
  List.infix_append_of_infix_right
    (List.infix_append_of_infix_right (List.infix_append' _ _ _))

end Junctions

/-- **The lines of a leaf stand inside the lines of its forest.** -/
theorem Forest.lines_isInfix (store : Store) (F : Forest) :
    ∀ l ∈ F.contents.leaves, l.lines store <:+: F.lines store := by
  intro l hl
  induction F with
  | nil => cases hl
  | leaf id other rest ih =>
    rcases List.mem_append.mp hl with hl | hl
    · rw [List.mem_singleton.mp hl]
      exact List.infix_append_left
    · exact List.infix_append_of_infix_right (ih hl)
  | scope head inside rest ihi ihr =>
    simp only [contents, ScopeHead.node, Contents.leaves_append, Contents.leaves_node,
      List.append_nil, List.mem_append] at hl
    rcases hl with hl | hl
    · exact List.infix_append_of_infix_left (ihi hl)
    · exact List.infix_append_of_infix_right (ihr hl)
  | branch j c condition b body rest ihc ihb ihr =>
    simp only [contents, ScopeHead.node, Junction.branch, Contents.leaves_append,
      Contents.leaves_node, Contents.leaves_number, List.append_nil, List.nil_append,
      List.mem_append] at hl
    rcases hl with (hl | hl) | hl
    · exact List.infix_append_of_infix_left ((ihc hl).trans (condition_isInfix ..))
    · exact List.infix_append_of_infix_left ((ihb hl).trans (body_isInfix ..))
    · exact List.infix_append_of_infix_right (ihr hl)
  | fork j c condition b body a o otherwise rest ihc ihb iho ihr =>
    simp only [contents, ScopeHead.node, Junction.branch, Junction.alternative,
      Contents.leaves_append, Contents.leaves_node, Contents.leaves_number, List.append_nil,
      List.nil_append, List.mem_append] at hl
    rcases hl with ((hl | hl) | hl) | hl
    · exact List.infix_append_of_infix_left ((ihc hl).trans (condition_isInfix ..))
    · exact List.infix_append_of_infix_left ((ihb hl).trans (body_isInfix ..))
    · refine List.infix_append_of_infix_right (List.infix_append_of_infix_left ?_)
      exact (iho hl).trans (List.infix_append' _ _ _)
    · exact List.infix_append_of_infix_right (List.infix_append_of_infix_right (ihr hl))
  | loop j c condition b body rest ihc ihb ihr =>
    simp only [contents, ScopeHead.node, Junction.loop, Contents.leaves_append,
      Contents.leaves_node, Contents.leaves_number, List.append_nil, List.nil_append,
      List.mem_append] at hl
    rcases hl with (hl | hl) | hl
    · exact List.infix_append_of_infix_left ((ihc hl).trans (condition_isInfix ..))
    · exact List.infix_append_of_infix_left ((ihb hl).trans (body_isInfix ..))
    · exact List.infix_append_of_infix_right (ihr hl)

theorem assemblyBytes_isInfix {lines lines' : List Line} (h : lines <:+: lines') :
    assemblyBytes lines <:+: assemblyBytes lines' := by
  obtain ⟨before, after, rfl⟩ := h
  rw [assemblyBytes_append, assemblyBytes_append]
  exact List.infix_append _ _ _

/-! ## Functions -/

/-- The block of a literal. -/
def Leaf.literal? : Leaf → Option Block
  | .expression token => some (.expression token)
  | .assembly token => some (.assembly token)
  | _ => none

/-- A literal among the blocks is one of the leaves. -/
theorem Contents.Leafy.mem_leaves {c : Contents} (h : c.Leafy) {l : Leaf} {block : Block}
    (hl : l.literal? = some block) {id : BlockId} (hp : (id, block) ∈ c.nodes) : l ∈ c.leaves := by
  have hleaf : block.isLeaf = true := by
    cases l <;> cases hl <;> rfl
  obtain ⟨id', l', hl', hmem, -⟩ := h _ hp hleaf
  obtain rfl : l = l' := by
    cases l <;> cases hl <;> cases l' <;> simp_all [Leaf.nodes]
  exact hl'

/-- **A block lies inside a function.** -/
def Compilation.Contains (c : Compilation) (id : DefId) (block : BlockId) : Prop :=
  ∃ d f, c.store.def? id = some d ∧ d.body = .function f ∧
    ReflTransGen (Owns c.store) f.body block

namespace UnitTree

variable {before : Store} {c : Compilation} {chunks : List Chunk}

/-- **The code of a literal stands inside the code of the function around it**, unless that is left
out. -/
theorem leaf_isInfix (h : UnitTree before c.store c.unit chunks) {id : DefId} (hid : id ∈ c.unit)
    {x : BlockId} (hcontains : c.Contains id x) {l : Leaf} {block : Block}
    (hl : l.literal? = some block) (hblock : c.store.block? x = some block) (settings : Settings)
    (reason : String) (hne : c.segment settings ⟨none, reason⟩ id ≠ []) :
    assemblyBytes (l.lines c.store) <:+: c.segment settings ⟨none, reason⟩ id := by
  obtain ⟨d, f, hd, hf, hreach⟩ := hcontains
  obtain ⟨i, chunk, head, inside, hi, hchunk, hbody, hroot⟩ := h.function_at hid hd hf
  have hmem : chunk ∈ chunks := List.mem_of_getElem? hchunk
  have hhead : f.body ∈ chunk.contents.ids := by
    refine Chunk.root_mem ?_
    rw [Chunk.root?, hbody, hroot]
    rfl
  have hx : x ∈ chunk.contents.ids := by
    have hallocated := h.mem_allocated.mpr ⟨chunk, hmem, hhead⟩
    exact h.reached_mem hmem hhead (h.edges_of_owns hallocated hreach)
  have hleaf : l ∈ inside.contents.leaves := by
    have hleaves := chunk.leafy.mem_leaves hl (h.mem_nodes hmem hx hblock)
    rw [Chunk.contents, hbody] at hleaves
    exact hleaves
  have hp : (id, chunk) ∈ c.unit.zip chunks :=
    List.mem_of_getElem? (List.getElem?_zip_eq_some.mpr ⟨hi, hchunk⟩)
  obtain ⟨d', hd', -, hsegment⟩ := h.segment_at hp
  rw [hd] at hd'
  cases hd'
  rw [hsegment, Chunk.lines] at hne ⊢
  split_ifs at hne ⊢ with hkept
  · exact absurd rfl hne
  · refine assemblyBytes_isInfix (.trans ?_ (List.infix_append' _ _ _))
    rw [Chunk.ownLines, hf, hbody]
    exact (inside.lines_isInfix c.store l hleaf).trans (List.infix_append' _ _ _)

/-- Every block that was added lies inside a function. -/
theorem exists_contains {maxNodes : Nat} (h : UnitTree (.empty maxNodes) c.store c.unit chunks)
    {x : BlockId} {block : Block} (hblock : c.store.block? x = some block) :
    ∃ id ∈ c.unit, c.Contains id x := by
  obtain ⟨hgeneration, hget⟩ := Store.block?_eq_some.mp hblock
  have hx : x ∈ (Store.empty maxNodes).allocated c.store := by
    obtain ⟨index, generation⟩ := x
    have hlt : index < c.store.blocks.size := (Array.getElem?_eq_some_iff.mp hget).1
    refine List.mem_map.mpr ⟨index, ?_, ?_⟩
    · simpa [Store.empty] using hlt
    · rw [BlockId.mk.injEq]
      exact ⟨rfl, (hgeneration.trans h.generation).symm⟩
  obtain ⟨root, hroot, hreach⟩ := h.exists_root hx
  obtain ⟨id, hid, hfound⟩ := List.mem_filterMap.mp hroot
  obtain ⟨d, hd, hbody⟩ := Option.bind_eq_some_iff.mp hfound
  refine ⟨id, hid, d, ?_⟩
  cases hf : d.body with
  | function f =>
    rw [Definition.body?, hf] at hbody
    cases hbody
    exact ⟨f, hd, rfl, ReflTransGen.mono (fun _ _ hedge => hedge.2) _ _ hreach⟩
  | memory capacity =>
    rw [Definition.body?, hf] at hbody
    cases hbody
  | string literal =>
    rw [Definition.body?, hf] at hbody
    cases hbody

/-- **What is written if all of it fits on the device.** -/
theorem emit_eq_of_ok (h : UnitTree before c.store c.unit chunks) {settings : Settings}
    {device : Device} (hok : (c.emit settings device).outcome = .ok ()) :
    (c.emit settings device).bytes = (c.emit settings {}).bytes := by
  have hgives (device : Device) :=
    h.gives settings.emitOptions (size_blocks_le_emitLevels c.store device)
  have hfree : (c.emit settings {}).bytes =
      assemblyBytes (unitLines settings.emitOptions c.store c.unit chunks) := by
    rw [Compilation.emit, emitUnit, hgives {} ""]
    rfl
  rw [hfree]
  obtain ⟨capacity, reason⟩ := device
  cases capacity with
  | none =>
    rw [Compilation.emit, emitUnit, hgives ⟨none, reason⟩ reason]
    rfl
  | some capacity =>
    have hcut := (lowerUnit_cuts c.store settings.emitOptions
      (emitLevels c.store ⟨some capacity, reason⟩) c.unit reason).2 capacity
    rw [hgives ⟨some capacity, reason⟩ reason] at hcut
    by_cases hfits : linesSize (unitLines settings.emitOptions c.store c.unit chunks) ≤ capacity
    · rw [Compilation.emit, emitUnit, hcut.fits hfits]
      refine List.take_of_length_le ?_
      rwa [← length_assemblyBytes] at hfits
    · obtain ⟨hstopped, -⟩ := hcut.stops (Nat.lt_of_not_le hfits)
      rw [Compilation.emit, emitUnit, hstopped] at hok
      cases hok

end UnitTree

/-- **A source that is compiled to its end**: its text is accepted, and what is written is the code of
its definitions in order, between what comes before and after all of them. -/
theorem compile_eq_ok {settings : Settings} {source : List UInt8} {device : Device}
    {times : StageTimes} {c : Compilation}
    (h : (compile settings source device times).outcome = .ok c) :
    ∃ text chunks, Utf8.decode source = (text, []) ∧
      parseChars settings.parseOptions (.empty Store.defaultMaxNodes) text =
        ⟨.ok c.unit, c.store⟩ ∧
      UnitTree (.empty Store.defaultMaxNodes) c.store c.unit chunks ∧
      (compile settings source device times).bytes = assemblyBytes (preamble settings.entry) ++
        (c.unit.flatMap (c.segment settings {}) ++ assemblyBytes postamble) := by
  unfold compile at h ⊢
  cases hsource : Compilation.ofBytes settings source with
  | error e =>
    rw [hsource] at h
    cases h
  | ok c' =>
    rw [hsource] at h
    dsimp only at h ⊢
    cases hok : (c'.emit settings device).outcome with
    | error e =>
      rw [hok] at h
      cases h
    | ok u =>
      rw [hok] at h
      cases h
      obtain ⟨text, hdecode, hparse⟩ := ofBytes_decodes hsource
      obtain ⟨chunks, htree⟩ := unitTree_of_parseChars hparse
      refine ⟨text, chunks, hdecode, hparse, htree, ?_⟩
      rw [htree.emit_eq_of_ok hok, htree.bytes_eq settings ""]

end StackCompiler
