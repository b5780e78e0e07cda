import StackCompiler.Proofs.Lowering.Lines
import StackCompiler.Proofs.Tree.Unit

/-!
# The lines of a unit

Every definition of an accepted text can be lowered, and so can the whole unit.

* `Chunk.lines`, `unitLines`: the lines of definitions and units.
* `UnitTree.lowers`: the leaves of a unit can be lowered.
* **`UnitTree.gives`**: lowering a unit writes its lines.
-/

namespace StackCompiler

open Emission

/-! ## Definitions -/

namespace Chunk

/-- The lines of what is defined. -/
def ownLines (store : Store) (d : Definition) (chunk : Chunk) : List Line :=
  match d.body, chunk.body with
  | .function f, some (_, inside) =>
    prologue d f.isEntry ++ (inside.lines store ++ epilogue f.isEntry)
  | .function _, none => []
  | .memory capacity, _ => [.storage d.label (.bytes ((capacityBytes? capacity).getD 0))]
  | .string literal, _ => [.storage d.label (.values (storedBytes literal))]

/-- **The lines of a definition.** It may be left out if nothing refers to it. -/
def lines (options : EmitOptions) (store : Store) (d : Definition) (chunk : Chunk) : List Line :=
  if options.strip && !d.used then []
  else [.inSection d.sectionName] ++ (chunk.ownLines store d ++ [.blank])

end Chunk

/-- A size that is accepted is a number of bytes. -/
theorem capacityBytes?_isSome {capacity : Token} (hsize : IsSize capacity)
    (hfaithful : capacity.Faithful) : ∃ count, capacityBytes? capacity = some count := by
  rcases hsize with ⟨width, hkind⟩ | ⟨width, n, -, hvalue, hn⟩
  · rw [Token.Faithful, hkind] at hfaithful
    obtain ⟨n, hvalue⟩ := hfaithful
    exact ⟨n, by simp [capacityBytes?, Token.uint?, hvalue]⟩
  · exact ⟨n.toNat, by simp [capacityBytes?, Token.uint?, Token.int?, hvalue, hn]⟩

theorem lowerMemory_gives (d : Definition) {capacity : Token} (hsize : IsSize capacity)
    (hfaithful : capacity.Faithful) :
    (lowerMemory d capacity).Gives
      [.storage d.label (.bytes ((capacityBytes? capacity).getD 0))] () := by
  obtain ⟨count, hcount⟩ := capacityBytes?_isSome hsize hfaithful
  rw [lowerMemory, hcount]
  exact .write _

section Definitions

variable {store : Store} {levels : Nat} {chunk : Chunk}

theorem lowerFunction_gives (d : Definition) {f : Function} {head : ScopeHead} {inside : Forest}
    (hbody : f.body = head.id) (hnode : store.block? head.id = some (head.block inside.tops))
    (hinside : inside.contents.Stored store)
    (hleaves : ∀ l ∈ inside.contents.leaves, l.Lowers store) (hlevels : inside.height ≤ levels) :
    (lowerFunction store levels d f).Gives
      (prologue d f.isEntry ++ (inside.lines store ++ epilogue f.isEntry)) () := by
  refine (Gives.write _).bind ?_
  rw [hbody]
  refine (getScope_gives hnode _).silent_bind ?_
  exact (Forest.gives hinside hleaves hlevels).bind (.write _)

/-- **Lowering a definition writes its lines.** -/
theorem Chunk.gives (options : EmitOptions) {id : DefId} {d : Definition}
    (hd : store.def? id = some d) (hmarked : d.marked = chunk.definition.marked)
    (hfits : chunk.Fits) (hstored : chunk.contents.Stored store)
    (hleaves : ∀ l ∈ chunk.contents.leaves, l.Lowers store)
    (hlevels : chunk.contents.nodes.length ≤ levels) :
    (lowerDef options store levels id).Gives (chunk.lines options store d) () := by
  refine (getDef_gives hd).silent_bind ?_
  rw [Chunk.lines]
  split
  · exact .pure ()
  · refine (Gives.write _).bind ?_
    have hsame : d.body = chunk.definition.body := (Definition.mk.inj hmarked).2.2.2.2.2
    obtain ⟨definition, body⟩ := chunk
    rw [Chunk.Fits, ← hsame] at hfits
    unfold Chunk.ownLines
    cases hbody : d.body with
    | function f =>
      rw [hbody] at hfits
      cases body with
      | none => exact hfits.elim
      | some tree =>
        obtain ⟨head, inside⟩ := tree
        simp only [Chunk.contents, ScopeHead.node, Contents.stored_append, Contents.stored_node,
          Contents.leaves_append, List.forall_mem_append, Contents.nodes_append,
          List.length_append] at hstored hleaves hlevels
        have hheight := Nat.le_trans inside.height_le (Nat.le_of_add_left_le hlevels)
        exact (lowerFunction_gives d hfits hstored.1 hstored.2 hleaves.2 hheight).bind (.write _)
    | memory capacity =>
      rw [hbody] at hfits
      cases body with
      | none => exact (lowerMemory_gives d hfits.1 hfits.2).bind (.write _)
      | some tree => exact hfits.elim
    | string literal => exact (Gives.write _).bind (.write _)

end Definitions

/-! ## Units -/

/-- The lines of the definitions of a unit. -/
def definitionLines (options : EmitOptions) (store : Store) (unit : List DefId)
    (chunks : List Chunk) : List Line :=
  (unit.zip chunks).flatMap fun p => (store.def? p.1).elim [] fun d => p.2.lines options store d

/-- **The lines of a unit.** -/
def unitLines (options : EmitOptions) (store : Store) (unit : List DefId) (chunks : List Chunk) :
    List Line :=
  preamble options.entry ++ (definitionLines options store unit chunks ++ postamble)

/-- What stands at the places of one row, given another row of the same length. -/
theorem flatMap_zip_fst {α β γ : Type} {f : α → List γ} {g : α × β → List γ} {as : List α}
    {bs : List β} (hlength : as.length = bs.length) (h : ∀ p ∈ as.zip bs, f p.1 = g p) :
    (as.zip bs).flatMap g = as.flatMap f := by
  rw [← List.flatMap_congr h, ← List.flatMap_map]
  exact congrArg (List.flatMap f) (List.map_fst_zip (Nat.le_of_eq hlength))

/-- A row of emissions, given the lines of each. -/
theorem Emission.Gives.forM_zip {α β : Type} {f : α → Emission Unit} {g : α × β → List Line}
    {as : List α} {bs : List β} (hlength : as.length = bs.length)
    (h : ∀ p ∈ as.zip bs, (f p.1).Gives (g p) ()) :
    (as.forM f).Gives ((as.zip bs).flatMap g) () := by
  induction as generalizing bs with
  | nil => exact .pure ()
  | cons a as ih =>
    cases bs with
    | nil => cases hlength
    | cons b bs =>
      rw [List.zip_cons_cons, List.forall_mem_cons] at h
      rw [List.zip_cons_cons, List.flatMap_cons]
      exact h.1.forM_cons (ih (Nat.succ.inj hlength) h.2)

namespace UnitTree

variable {before after : Store} {unit : List DefId} {chunks : List Chunk}

/-- **The leaves of a unit can be lowered.** -/
theorem lowers (h : UnitTree before after unit chunks) {i : Nat} {chunk : Chunk}
    (hi : chunks[i]? = some chunk) : ∀ l ∈ chunk.contents.leaves, l.Lowers after := by
  intro l hl
  have hfits := (h.chunk i chunk hi).leaves l hl
  cases l with
  | expression token => exact hfits
  | reference token target =>
    obtain ⟨-, chunk', hstands⟩ := hfits
    obtain ⟨-, d, -, hd, -⟩ := h.target_at hstands
    exact ⟨d, hd⟩
  | call location callee token target =>
    obtain ⟨-, chunk', hstands, hfunction⟩ := hfits
    obtain ⟨-, d, -, hd, hmarked, -⟩ := h.target_at hstands
    have hsame := congrArg Definition.isFunction hmarked
    exact ⟨d, hd, hsame.trans hfunction⟩
  | cast location types => trivial
  | assembly token => trivial

theorem length_nodes_le (h : UnitTree before after unit chunks) {chunk : Chunk}
    (hchunk : chunk ∈ chunks) : chunk.contents.nodes.length ≤ after.blocks.size := by
  have hsub := (List.sublist_flatten_of_mem
    (List.mem_map_of_mem (f := fun chunk : Chunk => chunk.contents.nodes) hchunk)).length_le
  rw [← List.flatMap_def, ← Chunk.nodes_all] at hsub
  have hsize := congrArg List.length h.blocks
  simp only [Array.length_toList, List.length_append, List.length_map] at hsize
  omega

/-- Lowering a definition of a unit writes its lines. -/
theorem gives_at (h : UnitTree before after unit chunks) (options : EmitOptions) {levels : Nat}
    (hlevels : after.blocks.size ≤ levels) {p : DefId × Chunk} (hp : p ∈ unit.zip chunks) :
    (lowerDef options after levels p.1).Gives
      ((after.def? p.1).elim [] fun d => p.2.lines options after d) () := by
  obtain ⟨i, hi⟩ := List.mem_iff_getElem?.mp hp
  obtain ⟨hunit, hchunk⟩ := List.getElem?_zip_eq_some.mp hi
  obtain ⟨⟨id, d, hid, hd, hmarked⟩, -, hfits, -, -⟩ := h.chunk i p.2 hchunk
  rw [hunit] at hid
  obtain rfl := Option.some.inj hid
  have hmem := List.mem_of_getElem? hchunk
  rw [hd]
  exact Chunk.gives options hd hmarked hfits (h.stored_chunk hmem) (h.lowers hchunk)
    (Nat.le_trans (h.length_nodes_le hmem) hlevels)

/-- **Lowering a unit writes its lines.** -/
theorem gives (h : UnitTree before after unit chunks) (options : EmitOptions) {levels : Nat}
    (hlevels : after.blocks.size ≤ levels) :
    (lowerUnit options after levels unit).Gives (unitLines options after unit chunks) () := by
  have hdefinitions : (unit.forM (lowerDef options after levels)).Gives _ () :=
    .forM_zip h.length fun p hp => h.gives_at options hlevels hp
  exact (Gives.write _).bind (hdefinitions.bind (.write _))

end UnitTree

end StackCompiler
