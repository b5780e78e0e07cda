import StackCompiler.Proofs.Tree.Ownership
import StackCompiler.Proofs.Tree.Usage

/-!
# Why definitions are used

A definition of a unit is used exactly if the program starts with it or a name in the body of some
function stands for it. The program starts with the function of the name that was asked for.

* `Store.RefersSince`: a new block refers to a definition.
* `Workspace.Justified`: there is a reason for every definition that is used.
* `IsReferenced`: a name in the body of a function stands for a definition.
* **`UnitReasons`**, **`unitReasons_of_parseChars`**: the definitions of an accepted text.
-/

namespace StackCompiler

open Relation

/-! ## New references -/

/-- A block that was added since an earlier state of a store refers to a definition. -/
def Store.RefersSince (start store : Store) (id : DefId) : Prop :=
  ∃ x token, start.blocks.size ≤ x.index ∧ store.block? x = some (.reference token id)

namespace Store.RefersSince

variable {start store : Store} {id : DefId}

theorem withBlock (h : start.RefersSince store id) (block : Block) :
    start.RefersSince (store.withBlock block) id := by
  obtain ⟨x, token, hx, hblock⟩ := h
  obtain ⟨hgeneration, hget⟩ := block?_eq_some.mp hblock
  refine ⟨x, token, hx, block?_eq_some.mpr ⟨hgeneration, ?_⟩⟩
  have hlt := (Array.getElem?_eq_some_iff.mp hget).1
  rw [Store.withBlock, Array.getElem?_push_lt hlt, ← Array.getElem?_eq_getElem hlt, hget]

theorem modifyBlock (h : start.RefersSince store id) (target : BlockId) {f : Block → Block}
    (hf : ∀ block, block.isReference = true → f block = block) :
    start.RefersSince (store.modifyBlock target f) id := by
  obtain ⟨x, token, hx, hblock⟩ := h
  refine ⟨x, token, hx, ?_⟩
  rw [block?_modifyBlock, hblock, Option.map_some, hf _ rfl, ite_self]

theorem modifyDef (h : start.RefersSince store id) (target : DefId)
    (f : Definition → Definition) : start.RefersSince (store.modifyDef target f) id := by
  rw [RefersSince, block?_modifyDef]
  exact h

end Store.RefersSince

/-! ## Workspaces -/

/-- **There is a reason for every definition that is used**, among those that were added to a store:
the program starts with it, or a block that was added refers to it. The program starts with the
function of the name that was asked for. -/
structure Workspace.Justified (options : ParseOptions) (start : Store) (w : Workspace) : Prop where
  size_le : start.blocks.size ≤ w.store.blocks.size
  entries : ∀ id d, start.defs.size ≤ id.index → w.store.def? id = some d →
    d.isEntry = (d.isFunction && d.ident.text == options.entry)
  reasons : ∀ id d, start.defs.size ≤ id.index → w.store.def? id = some d → d.used = true →
    d.isEntry = true ∨ start.RefersSince w.store id

namespace Workspace.Justified

variable {options : ParseOptions} {start : Store} {w : Workspace}

theorem init (options : ParseOptions) (start : Store) : Justified options start ⟨start, [], 0⟩ where
  size_le := Nat.le_refl _
  entries _ _ hid hd := absurd (Store.index_lt_of_def? hd) (Nat.not_lt.mpr hid)
  reasons _ _ hid hd _ := absurd (Store.index_lt_of_def? hd) (Nat.not_lt.mpr hid)

theorem withBlock (h : w.Justified options start) (block : Block) :
    Justified options start { w with store := w.store.withBlock block } where
  size_le := by
    rw [Store.withBlock, Array.size_push]
    exact Nat.le_succ_of_le h.size_le
  entries := h.entries
  reasons id d hid hd hused := (h.reasons id d hid hd hused).imp_right fun hrefers =>
    hrefers.withBlock block

theorem modifyBlock (h : w.Justified options start) (target : BlockId) {f : Block → Block}
    (hf : ∀ block, block.isReference = true → f block = block) :
    Justified options start { w with store := w.store.modifyBlock target f } := by
  have hdef := Store.def?_modifyBlock w.store target f
  refine ⟨?_, fun id d hid hd => ?_, fun id d hid hd hused => ?_⟩
  · rw [Store.size_blocks_modifyBlock]
    exact h.size_le
  · rw [hdef] at hd
    exact h.entries id d hid hd
  · rw [hdef] at hd
    exact (h.reasons id d hid hd hused).imp_right fun hrefers => hrefers.modifyBlock target hf

/-- **A reference is the reason for its target.** -/
theorem withReference (h : w.Justified options start) (name : Token) (target : DefId) :
    (w.withReference name target).Justified options start := by
  have hrefers : start.RefersSince (w.withReference name target).store target := by
    refine ⟨_, name, ?_, Store.block?_withBlock ..⟩
    change start.blocks.size ≤ (w.store.modifyDef target _).blocks.size
    rw [Store.blocks_modifyDef]
    exact h.size_le
  have hold {id : DefId} (hid : start.RefersSince w.store id) :
      start.RefersSince (w.withReference name target).store id := (hid.modifyDef target _).withBlock _
  have hdef {id : DefId} {d : Definition} (hd : (w.withReference name target).store.def? id = some d) :
      ∃ d₀, w.store.def? id = some d₀ ∧ d.marked = d₀.marked ∧ (target ≠ id → d = d₀) := by
    change (w.store.modifyDef target _).def? id = some d at hd
    rw [Store.def?_modifyDef] at hd
    split at hd
    · next heq =>
      obtain ⟨d₀, hd₀, rfl⟩ := Option.map_eq_some_iff.mp hd
      exact ⟨d₀, hd₀, rfl, fun hne => absurd heq hne⟩
    · exact ⟨d, hd, rfl, fun _ => rfl⟩
  refine ⟨?_, fun id d hid hd => ?_, fun id d hid hd hused => ?_⟩
  · obtain ⟨x, token, hx, hblock⟩ := hrefers
    have := (Array.getElem?_eq_some_iff.mp (Store.block?_eq_some.mp hblock).2).1
    omega
  · obtain ⟨d₀, hd₀, hmarked, -⟩ := hdef hd
    have hentry := h.entries id d₀ hid hd₀
    have hident : d.ident = d₀.ident := (Definition.mk.inj hmarked).2.1
    change d.marked.isEntry = (d.marked.isFunction && _)
    rw [hmarked, hident]
    exact hentry
  · by_cases heq : target = id
    · exact .inr (heq ▸ hrefers)
    · obtain ⟨d₀, hd₀, -, hsame⟩ := hdef hd
      rw [hsame heq] at hused ⊢
      exact (h.reasons id d₀ hid hd₀ hused).imp_right hold

/-- One more definition, which is used only if the program starts with it. -/
theorem withDef (h : w.Justified options start) {d : Definition} (hd : d.Begun options)
    (index : Nat) (symbols : List (String × DefId)) :
    Justified options start ⟨w.store.withDef { d with index := index }, symbols, w.nextIndex⟩ := by
  have hdef {id : DefId} {d' : Definition}
      (hd' : (w.store.withDef { d with index := index }).def? id = some d') :
      w.store.def? id = some d' ∨ d' = { d with index := index } := by
    obtain ⟨hgeneration, hget⟩ := Store.def?_eq_some.mp hd'
    rw [Store.withDef, Array.getElem?_push] at hget
    split at hget
    · exact .inr (Option.some.inj hget).symm
    · exact .inl (Store.def?_eq_some.mpr ⟨hgeneration, hget⟩)
  refine ⟨h.size_le, fun id d' hid hd' => ?_, fun id d' hid hd' hused => ?_⟩
  · rcases hdef hd' with hd' | rfl
    · exact h.entries id d' hid hd'
    · exact hd.isEntry
  · rcases hdef hd' with hd' | rfl
    · exact h.reasons id d' hid hd' hused
    · exact .inl (hd.used.symm.trans hused)

/-- **Building adds nothing without a reason.** -/
theorem invariant (options : ParseOptions) (start : Store) :
    BuildInvariant options (Justified options start) where
  number hw := ⟨hw.size_le, hw.entries, hw.reasons⟩
  block _ hw := hw.withBlock _
  reference _ hw := hw.withReference _ _
  change id _ hf hw := hw.modifyBlock id fun block href => hf block (.inl href)
  definition hd hw := hw.withDef hd _ _

end Workspace.Justified

/-! ## Units -/

/-- **A name in the body of a function of a unit stands for a definition.** -/
def IsReferenced (store : Store) (unit : List DefId) (id : DefId) : Prop :=
  ∃ body ∈ functionBodies store unit, ∃ x token, ReflTransGen (Owns store) body x ∧
    store.block? x = some (.reference token id)

/-- **Why definitions of a unit are used**: the program starts with them, or some function refers to
them. The program starts with the function of a given name. -/
structure UnitReasons (entry : String) (store : Store) (unit : List DefId) : Prop where
  entries : ∀ id ∈ unit, ∀ d, store.def? id = some d →
    (d.isEntry = true ↔ d.isFunction = true ∧ d.name = entry)
  used : ∀ id ∈ unit, ∀ d, store.def? id = some d →
    (d.used = true ↔ d.isEntry = true ∨ IsReferenced store unit id)

namespace UnitTree

variable {before after : Store} {unit : List DefId} {chunks : List Chunk}

theorem name_eq_text (h : UnitTree before after unit chunks) {id : DefId} {d : Definition}
    (hid : id ∈ unit) (hd : after.def? id = some d) : d.name = d.ident.text := by
  obtain ⟨i, hi⟩ := List.mem_iff_getElem?.mp hid
  obtain ⟨chunk, d', hchunk, hd', hmarked, -⟩ := h.definition_at hi
  rw [hd] at hd'
  cases hd'
  have hident : d.ident = chunk.definition.ident := (Definition.mk.inj hmarked).2.1
  rw [h.name_eq hchunk hmarked, hident]

/-- A new reference stands in the body of a function. -/
theorem isReferenced_of_refersSince (h : UnitTree before after unit chunks) {id : DefId}
    (hrefers : before.RefersSince after id) : IsReferenced after unit id := by
  obtain ⟨x, token, hx, hblock⟩ := hrefers
  obtain ⟨hgeneration, hget⟩ := Store.block?_eq_some.mp hblock
  have hlt := (Array.getElem?_eq_some_iff.mp hget).1
  have hnew : x ∈ before.allocated after := by
    refine List.mem_map.mpr ⟨x.index, List.mem_range'_1.mpr ⟨hx, by omega⟩, ?_⟩
    rw [← h.generation, ← hgeneration]
  obtain ⟨body, hbody, hreach⟩ := h.exists_root hnew
  exact ⟨body, hbody, x, token, ReflTransGen.mono (fun _ _ hedge => hedge.2) _ _ hreach, hblock⟩

/-- **What a function refers to is used.** -/
theorem used_of_isReferenced (h : UnitTree before after unit chunks)
    (husage : UnitUsage after unit chunks) {id : DefId} (hrefers : IsReferenced after unit id) :
    ∃ d, after.def? id = some d ∧ d.used = true := by
  obtain ⟨body, hbody, x, token, hreach, hblock⟩ := hrefers
  rw [h.functionBodies_eq] at hbody
  obtain ⟨chunk, hchunk, hroot⟩ := List.mem_filterMap.mp hbody
  have hx : x ∈ chunk.contents.ids := by
    have hbody := h.mem_allocated.mpr ⟨chunk, hchunk, Chunk.root_mem hroot⟩
    exact h.reached_mem hchunk (Chunk.root_mem hroot) (h.edges_of_owns hbody hreach)
  obtain ⟨_, l, hl, hmem, -⟩ := chunk.leafy _ (h.mem_nodes hchunk hx hblock) rfl
  refine husage.targets chunk hchunk l hl id ?_
  cases l with
  | reference token' target =>
    cases List.mem_singleton.mp hmem
    rfl
  | call location callee token' target =>
    rcases List.mem_pair.mp hmem with heq | heq
    · cases heq
      rfl
    · cases heq
  | expression token' => cases List.mem_singleton.mp hmem
  | cast location types => cases List.mem_singleton.mp hmem
  | assembly token' => cases List.mem_singleton.mp hmem

end UnitTree

/-- **A definition of an accepted text is used exactly if the program starts with it or some function
refers to it.** -/
theorem unitReasons_of_parseChars {options : ParseOptions} {store after : Store}
    {source : List Char} {unit : List DefId}
    (h : parseChars options store source = ⟨.ok unit, after⟩) :
    UnitReasons options.entry after unit := by
  obtain ⟨chunks, htree, husage⟩ := unitUsage_of_parseChars h
  have hjustified : ∃ w : Workspace, w.store = after ∧ w.Justified options store := by
    obtain ⟨ds, w, -, hbuild, -, hstore⟩ := parseChars_eq_ok.mp h
    exact ⟨w, hstore.symm, (Workspace.Justified.invariant options store).definitions ds _ _ _ hbuild
      (.init options store)⟩
  obtain ⟨w, rfl, hjustified⟩ := hjustified
  refine ⟨fun id hid d hd => ?_, fun id hid d hd => ⟨fun hused => ?_, ?_⟩⟩
  · rw [hjustified.entries id d (size_defs_le_of_parseChars h hid) hd, htree.name_eq_text hid hd]
    simp
  · exact (hjustified.reasons id d (size_defs_le_of_parseChars h hid) hd hused).imp_right
      htree.isReferenced_of_refersSince
  · rintro (hentry | hrefers)
    · exact husage.entries id hid d hd hentry
    · obtain ⟨d', hd', hused⟩ := htree.used_of_isReferenced husage hrefers
      rw [hd] at hd'
      cases hd'
      exact hused

end StackCompiler
