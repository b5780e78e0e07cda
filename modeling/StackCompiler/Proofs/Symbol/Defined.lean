import Mathlib.Data.List.Flatten
import Mathlib.Data.List.Nodup
import StackCompiler.Proofs.Lowering.Unit
import StackCompiler.Proofs.Symbol.Spelling
import StackCompiler.Proofs.Tree.Ownership
import StackCompiler.Proofs.Tree.Usage

/-!
# The symbols that a unit defines

A unit defines a symbol for every definition that is lowered, the symbols of the branches,
alternatives and loops below these, and the three symbols of the return stack.

* `definedLabels`: the labels that lines define.
* `Block.labels`, `Forest.perm_definedLabels`: the labels of the blocks of a forest.
* `keptChunks`: the definitions that are lowered.
* **`UnitTree.nodup_definedLabels`**: no label is defined twice.
-/

namespace StackCompiler

/-! ## Lines -/

/-- The label that a line defines, for code or for data. -/
def Line.defines? : Line → Option Label
  | .label l | .storage l _ => some l
  | _ => none

/-- **The labels that lines define.** -/
def definedLabels (lines : List Line) : List Label := lines.filterMap Line.defines?

/-- Does the label belong to a branch, alternative or loop? -/
def Label.isControl : Label → Bool
  | .control .. => true
  | _ => false

theorem definedLabels_append (xs ys : List Line) :
    definedLabels (xs ++ ys) = definedLabels xs ++ definedLabels ys := List.filterMap_append

theorem definedLabels_subset {xs ys : List Line} (h : xs ⊆ ys) :
    definedLabels xs ⊆ definedLabels ys := by
  intro l hl
  obtain ⟨line, hline, hdefines⟩ := List.mem_filterMap.mp hl
  exact List.mem_filterMap.mpr ⟨line, h hline, hdefines⟩

/-! ## Forests -/

/-- **The labels of a branch, alternative or loop.** -/
def Block.labels : Block → List Label
  | .branch _ _ _ _ index =>
    [.control .prior .branchCondition index, .control .after .branchCondition index,
     .control .prior .branchBody index, .control .after .branchBody index]
  | .alternative _ _ index =>
    [.control .prior .alternativeBody index, .control .after .alternativeBody index]
  | .loop _ _ _ index =>
    [.control .prior .loopCondition index, .control .after .loopCondition index,
     .control .prior .loopBody index, .control .after .loopBody index]
  | _ => []

namespace Block

theorem isControl_labels {block : Block} {l : Label} (h : l ∈ block.labels) :
    l.isControl = true := by
  cases block <;> simp only [labels, List.mem_cons, List.not_mem_nil, or_false] at h
  · rcases h with rfl | rfl | rfl | rfl <;> rfl
  · rcases h with rfl | rfl <;> rfl
  · rcases h with rfl | rfl | rfl | rfl <;> rfl

theorem nodup_labels (block : Block) : block.labels.Nodup := by
  cases block <;> simp [labels]

theorem number?_of_mem_labels {block : Block} {l : Label} (h : l ∈ block.labels) :
    l.number? = block.number? := by
  cases block <;> simp only [labels, List.mem_cons, List.not_mem_nil, or_false] at h
  · rcases h with rfl | rfl | rfl | rfl <;> rfl
  · rcases h with rfl | rfl <;> rfl
  · rcases h with rfl | rfl | rfl | rfl <;> rfl

/-- The labels of a block stand for its number. -/
theorem count_labels_le (block : Block) {l : Label} {index : Nat} (hl : l.number? = some index) :
    block.labels.count l ≤ block.number?.toList.count index := by
  by_cases hmem : l ∈ block.labels
  · rw [← number?_of_mem_labels hmem, hl, Option.toList_some, List.count_singleton_self]
    exact List.nodup_iff_count_le_one.mp block.nodup_labels l
  · rw [List.count_eq_zero.mpr hmem]
    exact Nat.zero_le _

end Block

/-- The labels of all blocks. -/
def Contents.labels (c : Contents) : List Label := c.nodes.flatMap fun p => p.2.labels

theorem Contents.labels_append (c d : Contents) : (c ++ d).labels = c.labels ++ d.labels :=
  List.flatMap_append

theorem Contents.labels_node (id : BlockId) (block : Block) : (node id block).labels = block.labels :=
  List.append_nil _

theorem Contents.labels_number (index : Nat) : (number index).labels = [] := rfl

theorem Contents.labels_ofLeaf (id : BlockId) (l : Leaf) : (ofLeaf id l).labels = [] := by
  cases l <;> rfl

/-- The labels of blocks stand for their numbers. -/
theorem Contents.count_labels_le (c : Contents) {l : Label} {index : Nat}
    (hl : l.number? = some index) : c.labels.count l ≤ c.numbered.count index := by
  have hnodes (nodes : List (BlockId × Block)) :
      (nodes.flatMap fun p => p.2.labels).count l ≤
        (nodes.filterMap fun p => p.2.number?).count index := by
    induction nodes with
    | nil => exact Nat.le_refl 0
    | cons p nodes ih =>
      have hblock := p.2.count_labels_le hl
      rw [List.flatMap_cons, List.count_append, List.filterMap_cons]
      cases hnumber : p.2.number? <;> rw [hnumber] at hblock
      · simp only [Option.toList_none, List.count_nil] at hblock ⊢
        omega
      · simp only [Option.toList_some, List.count_cons, List.count_nil] at hblock ⊢
        omega
  exact hnodes c.nodes

theorem ScopeHead.labels_node (head : ScopeHead) (ids : List BlockId) :
    (head.node ids).labels = [] := rfl

section Forests

variable {store : Store}

theorem count_definedLabels_junctionLines (l : Label) (remark : Remark) (condition body : Piece)
    (index : Nat) (skip leave : Label) (conditionLines bodyLines : List Line) :
    (definedLabels (junctionLines remark condition body index skip leave conditionLines
        bodyLines)).count l =
      [Label.control .prior condition index, .control .after condition index,
        .control .prior body index, .control .after body index].count l +
      (definedLabels conditionLines).count l + (definedLabels bodyLines).count l := by
  have hlabels : definedLabels (junctionLines remark condition body index skip leave conditionLines
      bodyLines) = .control .prior condition index :: (definedLabels conditionLines ++
        .control .after condition index :: .control .prior body index ::
          (definedLabels bodyLines ++ [.control .after body index])) := by
    simp only [junctionLines, definedLabels_append]
    rfl
  rw [hlabels]
  simp only [List.count_cons, List.count_append, List.count_nil]
  omega

theorem count_definedLabels_alternativeLines (l : Label) (lines : List Line) (index : Nat) :
    (definedLabels (alternativeLines lines index)).count l =
      [Label.control .prior .alternativeBody index,
        .control .after .alternativeBody index].count l + (definedLabels lines).count l := by
  have hlabels : definedLabels (alternativeLines lines index) =
      .control .prior .alternativeBody index ::
        (definedLabels lines ++ [.control .after .alternativeBody index]) := by
    simp only [alternativeLines, definedLabels_append]
    rfl
  rw [hlabels]
  simp only [List.count_cons, List.count_append, List.count_nil]
  omega

theorem definedLabels_expressionLines (token : Token) :
    definedLabels (expressionLines token) = [] := by
  unfold expressionLines
  split
  · next operator _ =>
    rw [definedLabels, List.filterMap_map]
    exact List.filterMap_eq_nil_iff.mpr fun i _ => rfl
  · unfold literalLines
    split <;> rfl
  · rfl

theorem Leaf.definedLabels_lines (l : Leaf) : definedLabels (l.lines store) = [] := by
  cases l with
  | expression token => exact definedLabels_expressionLines token
  | reference token target => cases h : store.def? target <;> simp [lines, h] <;> rfl
  | call location callee token target => cases h : store.def? target <;> simp [lines, h] <;> rfl
  | cast location types => rfl
  | assembly token => rfl

/-- **The lines of a forest define the labels of its blocks.** -/
theorem Forest.perm_definedLabels (F : Forest) :
    (definedLabels (F.lines store)).Perm F.contents.labels := by
  refine List.perm_iff_count.mpr fun l => ?_
  induction F with
  | nil => rfl
  | leaf id leaf rest ih =>
    rw [lines, definedLabels_append, Leaf.definedLabels_lines, contents, Contents.labels_append,
      Contents.labels_ofLeaf]
    exact ih
  | scope head inside rest ihi ihr =>
    simp only [lines, definedLabels_append, contents, Contents.labels_append,
      ScopeHead.labels_node, List.append_nil, List.count_append]
    omega
  | branch j c condition b body rest ihc ihb ihr =>
    simp only [lines, branchLines, definedLabels_append, List.count_append,
      count_definedLabels_junctionLines, contents, Junction.branch, Contents.labels_append,
      Contents.labels_node, Contents.labels_number, ScopeHead.labels_node, List.append_nil,
      List.nil_append, Block.labels]
    omega
  | fork j c condition b body a o otherwise rest ihc ihb iho ihr =>
    simp only [lines, branchLines, definedLabels_append, List.count_append,
      count_definedLabels_junctionLines, count_definedLabels_alternativeLines, contents,
      Junction.branch, Junction.alternative, Contents.labels_append, Contents.labels_node,
      Contents.labels_number, ScopeHead.labels_node, List.append_nil, List.nil_append,
      Block.labels]
    omega
  | loop j c condition b body rest ihc ihb ihr =>
    simp only [lines, loopLines, definedLabels_append, List.count_append,
      count_definedLabels_junctionLines, contents, Junction.loop, Contents.labels_append,
      Contents.labels_node, Contents.labels_number, ScopeHead.labels_node, List.append_nil,
      List.nil_append, Block.labels]
    omega

end Forests

/-! ## Definitions -/

section Definitions

variable {store : Store} {chunk : Chunk} {d : Definition}

theorem Definition.isControl_label (d : Definition) : d.label.isControl = false := by
  unfold Definition.label
  split
  · split <;> rfl
  · rfl
  · rfl

theorem Definition.isEntry_label (d : Definition) : d.label.isEntry = d.isEntry := by
  cases hbody : d.body with
  | function f => cases hf : f.isEntry <;> simp [label, isEntry, hbody, hf, Label.isEntry]
  | memory capacity => simp [label, isEntry, hbody, Label.isEntry]
  | string literal => simp [label, isEntry, hbody, Label.isEntry]

theorem Definition.isFunction_of_isEntry (h : d.isEntry = true) : d.isFunction = true := by
  unfold isEntry at h
  split at h
  · next f hf => simp [isFunction, hf]
  · cases h

theorem Definition.label_of_isEntry (h : d.isEntry = true) : d.label = .entry d.name := by
  cases hbody : d.body with
  | function f =>
    rw [isEntry, hbody] at h
    rw [label, hbody]
    exact if_pos h
  | memory capacity => simp [isEntry, hbody] at h
  | string literal => simp [isEntry, hbody] at h

theorem Definition.number?_label (h : d.isEntry = false) : d.label.number? = some d.index := by
  cases hbody : d.body with
  | function f =>
    rw [isEntry, hbody] at h
    simp only at h
    simp [label, hbody, h, Label.number?]
  | memory capacity => simp [label, hbody, Label.number?]
  | string literal => simp [label, hbody, Label.number?]

theorem Definition.label_not_mem_ends (d : Definition) :
    d.label ∉ [Label.returnTop, .returnStack, .returnEnd] := by
  cases hentry : d.isEntry with
  | false =>
    have hnumber := Definition.number?_label hentry
    intro hmem
    simp only [List.mem_cons, List.not_mem_nil, or_false] at hmem
    rcases hmem with heq | heq | heq <;> rw [heq] at hnumber <;> cases hnumber
  | true => simp [Definition.label_of_isEntry hentry]

theorem definedLabels_prologue (d : Definition) (isEntry : Bool) :
    definedLabels (prologue d isEntry) = [d.label] := by cases isEntry <;> rfl

theorem definedLabels_epilogue (isEntry : Bool) : definedLabels (epilogue isEntry) = [] := by
  cases isEntry <;> rfl

/-- **A definition defines its symbol** and the labels of its blocks. -/
theorem Chunk.perm_definedLabels (hfits : chunk.Fits) (hmarked : d.marked = chunk.definition.marked) :
    (definedLabels (chunk.ownLines store d)).Perm (d.label :: chunk.contents.labels) := by
  have hsame : d.body = chunk.definition.body := (Definition.mk.inj hmarked).2.2.2.2.2
  obtain ⟨definition, body⟩ := chunk
  rw [Chunk.Fits, ← hsame] at hfits
  unfold Chunk.ownLines
  cases hbody : d.body with
  | function f =>
    rw [hbody] at hfits
    cases body with
    | none => exact hfits.elim
    | some tree =>
      rw [definedLabels_append, definedLabels_append, definedLabels_prologue,
        definedLabels_epilogue, List.append_nil]
      exact tree.2.perm_definedLabels.cons d.label
  | memory capacity =>
    rw [hbody] at hfits
    cases body with
    | none => exact .refl _
    | some tree => exact hfits.elim
  | string literal =>
    rw [hbody] at hfits
    cases body with
    | none => exact .refl _
    | some tree => exact hfits.elim

end Definitions

/-! ## Units -/

/-- **The definitions of a unit that are lowered**, with their chunks. -/
def keptChunks (options : EmitOptions) (store : Store) (unit : List DefId) (chunks : List Chunk) :
    List (Definition × Chunk) :=
  (unit.zip chunks).filterMap fun p =>
    (store.def? p.1).bind fun d => if options.strip && !d.used then none else some (d, p.2)

section Units

variable {options : EmitOptions} {store : Store} {unit : List DefId} {chunks : List Chunk}

theorem definitionLines_eq : definitionLines options store unit chunks =
    (keptChunks options store unit chunks).flatMap fun q =>
      [.inSection q.1.sectionName] ++ (q.2.ownLines store q.1 ++ [.blank]) := by
  rw [definitionLines, keptChunks, List.filterMap_eq_flatMap_toList, List.flatMap_assoc]
  refine List.flatMap_congr fun p _ => ?_
  cases store.def? p.1 with
  | none => rfl
  | some d =>
    rw [Option.elim_some, Option.bind_some, Chunk.lines]
    split <;> simp

theorem mem_keptChunks {q : Definition × Chunk} :
    q ∈ keptChunks options store unit chunks ↔
      ∃ (i : Nat) (id : DefId), unit[i]? = some id ∧ chunks[i]? = some q.2 ∧ store.def? id = some q.1 ∧
        (options.strip && !q.1.used) = false := by
  rw [keptChunks, List.mem_filterMap]
  constructor
  · rintro ⟨p, hp, hq⟩
    obtain ⟨i, hi⟩ := List.mem_iff_getElem?.mp hp
    obtain ⟨hunit, hchunk⟩ := List.getElem?_zip_eq_some.mp hi
    obtain ⟨d, hd, hq⟩ := Option.bind_eq_some_iff.mp hq
    split at hq
    · cases hq
    · next hkept =>
      cases hq
      exact ⟨i, p.1, hunit, hchunk, hd, Bool.eq_false_iff.mpr hkept⟩
  · rintro ⟨i, id, hunit, hchunk, hd, hkept⟩
    refine ⟨(id, q.2), ?_, ?_⟩
    · exact List.mem_iff_getElem?.mpr ⟨i, List.getElem?_zip_eq_some.mpr ⟨hunit, hchunk⟩⟩
    · rw [hd, Option.bind_some, hkept]
      rfl

theorem symbol_of_kept {p : DefId × Chunk} {l : Label}
    (h : ((store.def? p.1).bind fun d => if options.strip && !d.used then none
      else some (d, p.2)).map (fun q => q.1.label) = some l) :
    ∃ d, store.def? p.1 = some d ∧ d.label = l := by
  obtain ⟨q, hq, rfl⟩ := Option.map_eq_some_iff.mp h
  obtain ⟨d, hd, hq⟩ := Option.bind_eq_some_iff.mp hq
  split at hq
  · cases hq
  · cases hq
    exact ⟨d, hd, rfl⟩

variable (options store unit chunks) in
theorem keptChunks_sublist :
    ((keptChunks options store unit chunks).map Prod.snd).Sublist chunks := by
  induction unit generalizing chunks with
  | nil => exact List.nil_sublist _
  | cons id unit ih =>
    cases chunks with
    | nil => exact List.nil_sublist _
    | cons chunk chunks =>
      have hrest := ih chunks
      unfold keptChunks at hrest ⊢
      rw [List.zip_cons_cons, List.filterMap_cons]
      split
      · exact hrest.cons chunk
      · next q hq =>
        obtain ⟨d, -, hq⟩ := Option.bind_eq_some_iff.mp hq
        split at hq
        · cases hq
        · cases hq
          exact hrest.cons_cons chunk

end Units

theorem Chunk.flatMap_labels (chunks : List Chunk) :
    (chunks.flatMap fun chunk => chunk.contents.labels) = (Chunk.all chunks).labels := by
  rw [Contents.labels, Chunk.nodes_all, List.flatMap_assoc]
  rfl

namespace UnitTree

variable {before after : Store} {unit : List DefId} {chunks : List Chunk}
  (options : EmitOptions)

/-- A definition that is lowered, and its chunk. -/
theorem keptChunk_at (h : UnitTree before after unit chunks) {q : Definition × Chunk}
    (hq : q ∈ keptChunks options after unit chunks) :
    ∃ i, chunks[i]? = some q.2 ∧ q.1.marked = q.2.definition.marked ∧ q.1.index = i := by
  obtain ⟨i, id, hunit, hchunk, hd, -⟩ := mem_keptChunks.mp hq
  obtain ⟨chunk, d, hchunk', hd', hmarked, hindex⟩ := h.definition_at hunit
  rw [hchunk] at hchunk'
  rw [hd] at hd'
  cases hchunk'
  cases hd'
  exact ⟨i, hchunk, hmarked, hindex⟩

/-- **What a unit defines**: the symbols of its definitions, the labels of their blocks and the
symbols of the return stack. -/
theorem perm_definedLabels (h : UnitTree before after unit chunks) :
    (definedLabels (unitLines options after unit chunks)).Perm
      ((keptChunks options after unit chunks).map (fun q => q.1.label) ++
        ((keptChunks options after unit chunks).flatMap (fun q => q.2.contents.labels) ++
          [.returnTop, .returnStack, .returnEnd])) := by
  have hdefinitions : (definedLabels (definitionLines options after unit chunks)).Perm
      ((keptChunks options after unit chunks).flatMap fun q =>
        q.1.label :: q.2.contents.labels) := by
    rw [definitionLines_eq, definedLabels, List.filterMap_flatMap]
    refine List.Perm.flatMap_left _ fun q hq => ?_
    obtain ⟨i, hchunk, hmarked, -⟩ := h.keptChunk_at options hq
    change (definedLabels _).Perm _
    rw [definedLabels_append, definedLabels_append]
    change ([] ++ (definedLabels _ ++ [])).Perm _
    rw [List.nil_append, List.append_nil]
    exact Chunk.perm_definedLabels (h.chunk i q.2 hchunk).fits hmarked
  have hsplit := List.flatMap_append_perm (keptChunks options after unit chunks)
    (fun q => [q.1.label]) (fun q => q.2.contents.labels)
  rw [← List.map_eq_flatMap] at hsplit
  rw [unitLines, definedLabels_append, definedLabels_append, ← List.append_assoc (List.map _ _)]
  exact (hdefinitions.trans hsplit.symm).append_right _

/-- No two definitions of a unit have the same symbol. -/
theorem eq_of_label (h : UnitTree before after unit chunks) (husage : UnitUsage after unit chunks)
    {i j : Nat} {id id' : DefId} {d d' : Definition} (hi : unit[i]? = some id)
    (hj : unit[j]? = some id') (hd : after.def? id = some d) (hd' : after.def? id' = some d')
    (hlabel : d.label = d'.label) : i = j := by
  obtain ⟨chunk, e, hchunk, he, hmarked, hindex⟩ := h.definition_at hi
  obtain ⟨chunk', e', hchunk', he', hmarked', hindex'⟩ := h.definition_at hj
  rw [hd] at he
  rw [hd'] at he'
  cases he
  cases he'
  -- Symbols either carry the number of the definition or are its name.
  cases hentry : d.isEntry with
  | false =>
    have hentry' : d'.isEntry = false := by rw [← d'.isEntry_label, ← hlabel, d.isEntry_label, hentry]
    have hnumber := congrArg Label.number? hlabel
    rw [Definition.number?_label hentry, Definition.number?_label hentry', hindex, hindex'] at hnumber
    exact Option.some.inj hnumber
  | true =>
    have hentry' : d'.isEntry = true := by rw [← d'.isEntry_label, ← hlabel, d.isEntry_label, hentry]
    rw [Definition.label_of_isEntry hentry, Definition.label_of_isEntry hentry'] at hlabel
    have htext : chunk.definition.ident.text = chunk'.definition.ident.text := by
      rw [← h.name_eq hchunk hmarked, ← h.name_eq hchunk' hmarked']
      exact Label.entry.inj hlabel
    have hlt := (List.getElem?_eq_some_iff.mp hchunk).1
    refine (List.getElem?_inj (by simpa using hlt) husage.names).mp ?_
    rw [List.getElem?_map, List.getElem?_map, hchunk, hchunk', Option.map_some, Option.map_some, htext]

/-- No two blocks of a unit have the same label. -/
theorem nodup_labels (h : UnitTree before after unit chunks) : (Chunk.all chunks).labels.Nodup := by
  refine List.nodup_iff_count_le_one.mpr fun l => ?_
  by_cases hl : l ∈ (Chunk.all chunks).labels
  · obtain ⟨p, -, hmem⟩ := List.mem_flatMap.mp hl
    obtain ⟨index, hindex⟩ : ∃ index, l.number? = some index := by
      have := Block.isControl_labels hmem
      cases l with
      | control edge piece index => exact ⟨index, rfl⟩
      | _ => cases this
    have hnumbers : (Chunk.all chunks).numbers.Nodup := by
      rw [h.numbers]
      exact List.nodup_range
    calc (Chunk.all chunks).labels.count l
        ≤ (Chunk.all chunks).numbered.count index := Contents.count_labels_le _ hindex
      _ = (Chunk.all chunks).numbers.count index := (Chunk.perm_numbers_all chunks).count_eq index
      _ ≤ 1 := List.nodup_iff_count_le_one.mp hnumbers index
  · rw [List.count_eq_zero.mpr hl]
    exact Nat.zero_le _

/-- **No label is defined twice in a unit.** -/
theorem nodup_definedLabels (h : UnitTree before after unit chunks)
    (husage : UnitUsage after unit chunks) :
    (definedLabels (unitLines options after unit chunks)).Nodup := by
  rw [(h.perm_definedLabels options).nodup_iff]
  have hsymbols : ((keptChunks options after unit chunks).map fun q => q.1.label).Nodup := by
    rw [keptChunks, List.map_filterMap]
    refine List.pairwise_filterMap.mpr (List.pairwise_iff_getElem.mpr ?_)
    intro i j hi hj hlt l hl l' hl' heq
    obtain ⟨d, hd, hl⟩ := symbol_of_kept hl
    obtain ⟨d', hd', hl'⟩ := symbol_of_kept hl'
    have hat := List.getElem?_zip_eq_some.mp (List.getElem?_eq_getElem hi)
    have hat' := List.getElem?_zip_eq_some.mp (List.getElem?_eq_getElem hj)
    have := h.eq_of_label husage hat.1 hat'.1 hd hd' (by rw [hl, hl', heq])
    omega
  have hblocks : ((keptChunks options after unit chunks).flatMap fun q =>
      q.2.contents.labels).Nodup := by
    have hsub := (keptChunks_sublist options after unit chunks).flatMap fun chunk =>
      chunk.contents.labels
    rw [List.flatMap_map] at hsub
    refine List.Nodup.sublist hsub ?_
    rw [Chunk.flatMap_labels]
    exact h.nodup_labels
  have hcontrol : ∀ l ∈ (keptChunks options after unit chunks).flatMap fun q =>
      q.2.contents.labels, l.isControl = true := by
    intro l hl
    obtain ⟨q, -, hl⟩ := List.mem_flatMap.mp hl
    obtain ⟨p, -, hl⟩ := List.mem_flatMap.mp hl
    exact Block.isControl_labels hl
  refine List.nodup_append.mpr ⟨hsymbols, List.nodup_append.mpr ⟨hblocks, by decide, ?_⟩, ?_⟩
  · rintro l hl _ hend rfl
    have := hcontrol l hl
    simp only [List.mem_cons, List.not_mem_nil, or_false] at hend
    rcases hend with rfl | rfl | rfl <;> cases this
  · rintro l hl _ hmem rfl
    obtain ⟨q, -, rfl⟩ := List.mem_map.mp hl
    rcases List.mem_append.mp hmem with hmem | hend
    · have := hcontrol _ hmem
      rw [q.1.isControl_label] at this
      cases this
    · exact q.1.label_not_mem_ends hend

end UnitTree

end StackCompiler
