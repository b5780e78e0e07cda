import Mathlib.Data.List.Nodup
import StackCompiler.Proofs.Execution.Placement
import StackCompiler.Proofs.Lowering.Unit

/-!
# Labels of a unit

Branches, alternatives and loops are numbered throughout a unit, so no two of them share a label.

* `controls`: the labels of branches and loops in a sequence of lines.
* `Forest.count_controls_le`: every label stands for a number of the forest.
* **`UnitTree.labelsOnce`**: no label of a branch or loop stands at two places of a unit.
-/

namespace StackCompiler

/-- The label of a branch or loop that a line defines. -/
def Line.control? : Line → Option (Edge × Piece × Nat)
  | .label (.control edge piece index) => some (edge, piece, index)
  | _ => none

/-- The labels of branches and loops in a sequence of lines. -/
def controls (lines : List Line) : List (Edge × Piece × Nat) := lines.filterMap Line.control?

theorem controls_append (xs ys : List Line) : controls (xs ++ ys) = controls xs ++ controls ys :=
  List.filterMap_append

/-- Labels that are listed once stand at one place. -/
theorem labelsOnce_of_nodup {lines : List Line} (h : (controls lines).Nodup) :
    LabelsOnce lines := by
  have hpairs := List.pairwise_iff_getElem.mp (List.pairwise_filterMap.mp h)
  have hlt : ∀ (i j : Nat) (edge : Edge) (piece : Piece) (index : Nat),
      lines[i]? = some (mark edge piece index) → lines[j]? = some (mark edge piece index) →
      ¬ i < j := by
    intro i j edge piece index hi hj hlt
    obtain ⟨hi, hline⟩ := List.getElem?_eq_some_iff.mp hi
    obtain ⟨hj, hline'⟩ := List.getElem?_eq_some_iff.mp hj
    exact hpairs i j hi hj hlt (edge, piece, index) (by rw [hline]; rfl) (edge, piece, index)
      (by rw [hline']; rfl) rfl
  intro i j edge piece index hi hj
  have := hlt i j edge piece index hi hj
  have := hlt j i edge piece index hj hi
  omega

/-! ## Forests -/

section Forests

variable {store : Store} (k : Edge × Piece × Nat)

theorem Leaf.controls_lines (l : Leaf) : controls (l.lines store) = [] := by
  cases l with
  | expression token =>
    have hexpression : ∀ line ∈ expressionLines token, line.control? = none := by
      intro line hline
      unfold expressionLines at hline
      split at hline
      · obtain ⟨i, -, rfl⟩ := List.mem_map.mp hline
        rfl
      · unfold literalLines at hline
        split at hline
        · rcases List.mem_pair.mp hline with rfl | rfl <;> rfl
        · cases hline
      · cases hline
    exact List.filterMap_eq_nil_iff.mpr (List.forall_mem_cons.mpr ⟨rfl, hexpression⟩)
  | reference token target => cases h : store.def? target <;> simp [lines, h] <;> rfl
  | call location callee token target => cases h : store.def? target <;> simp [lines, h] <;> rfl
  | cast location types => rfl
  | assembly token => rfl

theorem controls_junctionLines (remark : Remark) (condition body : Piece) (index : Nat)
    (skip leave : Label) (conditionLines bodyLines : List Line) :
    controls (junctionLines remark condition body index skip leave conditionLines bodyLines) =
      (.prior, condition, index) :: (controls conditionLines ++ (.after, condition, index) ::
        (.prior, body, index) :: (controls bodyLines ++ [(.after, body, index)])) := by
  simp only [junctionLines, controls_append]
  rfl

theorem controls_alternativeLines (lines : List Line) (index : Nat) :
    controls (alternativeLines lines index) =
      (.prior, .alternativeBody, index) ::
        (controls lines ++ [(.after, .alternativeBody, index)]) := by
  simp only [alternativeLines, controls_append]
  rfl

/-- Different labels with one number stand for the number. -/
theorem count_labels_le {labels : List (Edge × Piece × Nat)} (hnodup : labels.Nodup) {index : Nat}
    (hindex : ∀ label ∈ labels, label.2.2 = index) : labels.count k ≤ [index].count k.2.2 := by
  by_cases hk : k ∈ labels
  · rw [hindex k hk, List.count_singleton_self]
    exact List.nodup_iff_count_le_one.mp hnodup k
  · rw [List.count_eq_zero.mpr hk]
    exact Nat.zero_le _

/-- The labels of a branch or loop stand for its number. -/
theorem count_junctionLines_le {condition body : Piece} (hne : condition ≠ body) (remark : Remark)
    (index : Nat) (skip leave : Label) (conditionLines bodyLines : List Line) :
    (controls (junctionLines remark condition body index skip leave conditionLines bodyLines)).count
        k ≤
      [index].count k.2.2 + (controls conditionLines).count k + (controls bodyLines).count k := by
  have hlabels : List.count k [(.prior, condition, index), (.after, condition, index),
      (.prior, body, index), (.after, body, index)] ≤ [index].count k.2.2 :=
    count_labels_le k (by simp [hne]) (by simp)
  rw [controls_junctionLines]
  simp only [List.count_cons, List.count_append, List.count_nil] at hlabels ⊢
  omega

theorem count_branchLines_le (condition body : List Line) (alternative : Option Nat)
    (index : Nat) : (controls (branchLines condition body alternative index)).count k ≤
      [index].count k.2.2 + (controls condition).count k + (controls body).count k :=
  count_junctionLines_le k (by decide) _ _ _ _ _ _

theorem count_loopLines_le (condition body : List Line) (index : Nat) :
    (controls (loopLines condition body index)).count k ≤
      [index].count k.2.2 + (controls condition).count k + (controls body).count k :=
  count_junctionLines_le k (by decide) _ _ _ _ _ _

theorem count_alternativeLines_le (lines : List Line) (index : Nat) :
    (controls (alternativeLines lines index)).count k ≤
      [index].count k.2.2 + (controls lines).count k := by
  have hlabels : List.count k [(.prior, .alternativeBody, index), (.after, .alternativeBody, index)]
      ≤ [index].count k.2.2 := count_labels_le k (by simp) (by simp)
  rw [controls_alternativeLines]
  simp only [List.count_cons, List.count_append, List.count_nil] at hlabels ⊢
  omega

/-- **The labels of a forest stand for its numbers.** -/
theorem Forest.count_controls_le (F : Forest) :
    (controls (F.lines store)).count k ≤ F.contents.numbers.count k.2.2 := by
  induction F with
  | nil => exact Nat.le_refl 0
  | leaf id l rest ih =>
    rw [lines, controls_append, Leaf.controls_lines]
    exact ih
  | scope head inside rest ihi ihr =>
    simp only [lines, controls_append, contents, ScopeHead.node, Contents.numbers_append,
      Contents.numbers_node, List.append_nil, List.count_append]
    omega
  | branch j c condition b body rest ihc ihb ihr =>
    have hbranch := count_branchLines_le k (condition.lines store) (body.lines store) none j.index
    simp only [lines, controls_append, contents, ScopeHead.node, Junction.branch,
      Contents.numbers_append, Contents.numbers_node, Contents.numbers_number, List.append_nil,
      List.count_append]
    omega
  | fork j c condition b body a o otherwise rest ihc ihb iho ihr =>
    have hbranch := count_branchLines_le k (condition.lines store) (body.lines store)
      (some a.index) j.index
    have halternative := count_alternativeLines_le k (otherwise.lines store) a.index
    simp only [lines, controls_append, contents, ScopeHead.node, Junction.branch,
      Junction.alternative, Contents.numbers_append, Contents.numbers_node,
      Contents.numbers_number, List.append_nil, List.count_append]
    omega
  | loop j c condition b body rest ihc ihb ihr =>
    have hloop := count_loopLines_le k (condition.lines store) (body.lines store) j.index
    simp only [lines, controls_append, contents, ScopeHead.node, Junction.loop,
      Contents.numbers_append, Contents.numbers_node, Contents.numbers_number, List.append_nil,
      List.count_append]
    omega

end Forests

/-! ## Units -/

section Units

variable {store : Store} (options : EmitOptions) (k : Edge × Piece × Nat)

theorem controls_prologue (d : Definition) (isEntry : Bool) : controls (prologue d isEntry) = [] := by
  have hlabel : (Line.label d.label).control? = none := by
    unfold Definition.label
    split
    · split <;> rfl
    · rfl
    · rfl
  cases isEntry <;>
    exact List.filterMap_eq_nil_iff.mpr (List.forall_mem_cons.mpr ⟨rfl, List.forall_mem_cons.mpr
      ⟨hlabel, List.forall_mem_cons.mpr ⟨rfl, List.forall_mem_singleton.mpr rfl⟩⟩⟩)

theorem controls_epilogue (isEntry : Bool) : controls (epilogue isEntry) = [] := by
  cases isEntry <;> rfl

theorem Chunk.count_controls_le (d : Definition) (chunk : Chunk) :
    (controls (chunk.lines options store d)).count k ≤ chunk.contents.numbers.count k.2.2 := by
  have hown : (controls (chunk.ownLines store d)).count k ≤ chunk.contents.numbers.count k.2.2 := by
    unfold Chunk.ownLines
    split
    · next f head inside _ hbody =>
      rw [controls_append, controls_append, controls_prologue, controls_epilogue, List.append_nil,
        List.nil_append, Chunk.contents, hbody]
      exact inside.count_controls_le k
    · exact Nat.zero_le _
    · exact Nat.zero_le _
    · exact Nat.zero_le _
  rw [Chunk.lines]
  split
  · exact Nat.zero_le _
  · rw [controls_append, controls_append]
    exact Nat.le_trans (Nat.le_of_eq (congrArg (List.count k) (List.append_nil _))) hown

theorem count_definitionLines_le (unit : List DefId) (chunks : List Chunk) :
    (controls (definitionLines options store unit chunks)).count k ≤
      (Chunk.all chunks).numbers.count k.2.2 := by
  induction unit generalizing chunks with
  | nil => exact Nat.zero_le _
  | cons id unit ih =>
    cases chunks with
    | nil => exact Nat.zero_le _
    | cons chunk chunks =>
      have hchunk : (controls ((store.def? id).elim [] fun d =>
          chunk.lines options store d)).count k ≤ chunk.contents.numbers.count k.2.2 := by
        cases store.def? id with
        | none => exact Nat.zero_le _
        | some d => exact chunk.count_controls_le options k d
      have hrest := ih chunks
      rw [definitionLines] at hrest ⊢
      rw [List.zip_cons_cons, List.flatMap_cons, controls_append, List.count_append, Chunk.all,
        Contents.numbers_append, List.count_append]
      exact Nat.add_le_add hchunk hrest

section Tree

variable {before after : Store} {unit : List DefId} {chunks : List Chunk}

theorem UnitTree.nodup_controls (h : UnitTree before after unit chunks) :
    (controls (unitLines options after unit chunks)).Nodup := by
  refine List.nodup_iff_count_le_one.mpr fun k => ?_
  have hnumbers : (Chunk.all chunks).numbers.Nodup := by
    rw [h.numbers]
    exact List.nodup_range
  have hcontrols : controls (unitLines options after unit chunks) =
      controls (definitionLines options after unit chunks) := by
    rw [unitLines, controls_append, controls_append]
    exact List.append_nil _
  rw [hcontrols]
  exact Nat.le_trans (count_definitionLines_le options k unit chunks)
    (List.nodup_iff_count_le_one.mp hnumbers k.2.2)

/-- **No label of a branch or loop stands at two places of a unit.** -/
theorem UnitTree.labelsOnce (h : UnitTree before after unit chunks) :
    LabelsOnce (unitLines options after unit chunks) :=
  labelsOnce_of_nodup (h.nodup_controls options)

end Tree

end Units

end StackCompiler
