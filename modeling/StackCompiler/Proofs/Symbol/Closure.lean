import StackCompiler.Assembly.Output
import StackCompiler.Proofs.Execution.Placement
import StackCompiler.Proofs.Symbol.Defined

/-!
# The symbols that a unit uses

Every symbol that an instruction of a unit uses is defined in the unit, whether or not definitions
are left out. Jumps stay in their function. Labels that the compiler makes up are spelled differently.

* `Line.uses`, `Line.goesTo?`: the symbols that a line uses, and where it jumps.
* `Line.Resolves`: jumps stay among some labels, and other symbols are known.
* `ClosedSymbols`, **`closedSymbols_of_parseChars`**: the symbols of an accepted text.
-/

namespace StackCompiler

/-! ## Lines -/

/-- The symbol of an operand. -/
def Operand.label? : Operand → Option Label
  | .address l | .cell l => some l
  | .register .. | .immediate _ | .pointee _ => none

/-- **The symbols that an instruction uses.** -/
def Instruction.uses : Instruction → List Label
  | .push operand | .unary _ operand | .setIf _ operand => operand.label?.toList
  | .mov target source | .binary _ target source | .moveIf _ target source =>
    target.label?.toList ++ source.label?.toList
  | .jump l | .jumpIfZero l | .call l => [l]
  | .pop _ | .ret | .syscall => []

namespace Line

/-- **The symbols that a line uses.** Lines of the source program are left aside. -/
def uses : Line → List Label
  | .instruction i => i.uses
  | _ => []

/-- The label that a line jumps to. -/
def goesTo? : Line → Option Label
  | .instruction (.jump l) | .instruction (.jumpIfZero l) => some l
  | _ => none

/-- **The symbols of a line resolve**: it jumps only to labels inside, and uses no symbols but these
and some from outside. -/
def Resolves (inside outside : Label → Prop) (line : Line) : Prop :=
  (∀ l, line.goesTo? = some l → inside l) ∧ ∀ l ∈ line.uses, inside l ∨ outside l

variable {inside outside : Label → Prop} {line : Line}

theorem mem_uses_of_goesTo? {l : Label} (h : line.goesTo? = some l) : l ∈ line.uses := by
  unfold goesTo? at h
  split at h
  · cases h
    exact .head _
  · cases h
    exact .head _
  · cases h

theorem resolves_of_uses (h : line.goesTo? = none) (huses : ∀ l ∈ line.uses, outside l) :
    line.Resolves inside outside := by
  refine ⟨fun l hl => ?_, fun l hl => .inr (huses l hl)⟩
  rw [h] at hl
  cases hl

theorem resolves_of_nil (h : line.uses = []) : line.Resolves inside outside := by
  refine ⟨fun l hl => ?_, fun l hl => ?_⟩
  · have := mem_uses_of_goesTo? hl
    rw [h] at this
    cases this
  · rw [h] at hl
    cases hl

theorem resolves_jump {l : Label} (h : inside l) : (code (.jump l)).Resolves inside outside := by
  constructor
  · rintro _ ⟨⟩
    exact h
  · intro l' hl'
    rw [List.mem_singleton.mp hl']
    exact .inl h

theorem resolves_jumpIfZero {l : Label} (h : inside l) :
    (code (.jumpIfZero l)).Resolves inside outside := by
  constructor
  · rintro _ ⟨⟩
    exact h
  · intro l' hl'
    rw [List.mem_singleton.mp hl']
    exact .inl h

end Line

/-! ## Forests -/

section Forests

open Line

variable {store : Store} {inside outside : Label → Prop}

theorem uses_operatorCode (operator : Operator) :
    (operator.code.all fun i => i.uses.isEmpty) = true := by
  cases operator with
  | syscall arguments =>
    revert arguments
    decide
  | _ => rfl

theorem uses_expressionLines (token : Token) : ∀ line ∈ expressionLines token, line.uses = [] := by
  intro line hline
  unfold expressionLines at hline
  split at hline
  · next operator _ =>
    obtain ⟨i, hi, rfl⟩ := List.mem_map.mp hline
    exact List.isEmpty_iff.mp (List.all_eq_true.mp (uses_operatorCode operator) i hi)
  · unfold literalLines at hline
    split at hline
    · rcases List.mem_pair.mp hline with rfl | rfl <;> rfl
    · cases hline
  · cases hline

/-- The symbols of a leaf are what it refers to and the top of the return stack. -/
theorem Leaf.resolves (l : Leaf) (htop : outside .returnTop)
    (htarget : ∀ target d, l.target? = some target → store.def? target = some d →
      outside d.label) : ∀ line ∈ l.lines store, line.Resolves inside outside := by
  intro line hline
  cases l with
  | expression token =>
    rcases List.mem_cons.mp hline with rfl | hline
    · exact resolves_of_nil rfl
    · exact resolves_of_nil (uses_expressionLines token line hline)
  | reference token target =>
    cases hd : store.def? target with
    | none => simp [lines, hd] at hline
    | some d =>
      have hlabel := htarget target d rfl hd
      rw [lines, hd, Option.elim_some] at hline
      rcases List.mem_pair.mp hline with rfl | rfl
      · exact resolves_of_nil rfl
      · exact resolves_of_uses rfl (List.forall_mem_singleton.mpr hlabel)
  | call location callee token target =>
    cases hd : store.def? target with
    | none => simp [lines, hd] at hline
    | some d =>
      have hlabel := htarget target d rfl hd
      rw [lines, hd, Option.elim_some, callLines] at hline
      simp only [List.mem_cons, List.not_mem_nil, or_false] at hline
      rcases hline with rfl | rfl | rfl | rfl | rfl | rfl
      · exact resolves_of_nil rfl
      · exact resolves_of_nil rfl
      · exact resolves_of_uses rfl (List.forall_mem_singleton.mpr htop)
      · exact resolves_of_uses rfl (List.forall_mem_singleton.mpr hlabel)
      · exact resolves_of_uses rfl (List.forall_mem_singleton.mpr htop)
      · exact resolves_of_nil rfl
  | cast location types => cases hline
  | assembly token => rcases List.mem_pair.mp hline with rfl | rfl <;> exact resolves_of_nil rfl

theorem resolves_junctionLines {remark : Remark} {condition body : Piece} {index : Nat}
    {skip leave : Label} {conditionLines bodyLines : List Line}
    (hcondition : ∀ line ∈ conditionLines, line.Resolves inside outside)
    (hbody : ∀ line ∈ bodyLines, line.Resolves inside outside) (hskip : inside skip)
    (hleave : inside leave) :
    ∀ line ∈ junctionLines remark condition body index skip leave conditionLines bodyLines,
      line.Resolves inside outside := by
  intro line hline
  simp only [junctionLines, testLines, List.mem_append, List.mem_cons, List.not_mem_nil,
    or_false] at hline
  rcases hline with (rfl | rfl) | hline | ((rfl | rfl | rfl | rfl) | rfl) | hline | rfl | rfl
  · exact resolves_of_nil rfl
  · exact resolves_of_nil rfl
  · exact hcondition line hline
  · exact resolves_of_nil rfl
  · exact resolves_of_nil rfl
  · exact resolves_of_nil rfl
  · exact resolves_jumpIfZero hskip
  · exact resolves_of_nil rfl
  · exact hbody line hline
  · exact resolves_jump hleave
  · exact resolves_of_nil rfl

/-- What holds of the labels of a branch or loop. -/
theorem forall_definedLabels_junctionLines {remark : Remark} {condition body : Piece} {index : Nat}
    {skip leave : Label} {conditionLines bodyLines : List Line}
    (h : ∀ l ∈ definedLabels (junctionLines remark condition body index skip leave conditionLines
      bodyLines), inside l) :
    inside (.control .prior condition index) ∧ inside (.control .after body index) ∧
      (∀ l ∈ definedLabels conditionLines, inside l) ∧ ∀ l ∈ definedLabels bodyLines, inside l := by
  simp only [junctionLines, definedLabels_append, List.forall_mem_append] at h
  exact ⟨h.1 _ (.head _), h.2.2.2.2 _ (.head _), h.2.1, h.2.2.2.1⟩

theorem resolves_alternativeLines {bodyLines : List Line} (index : Nat)
    (hbody : ∀ line ∈ bodyLines, line.Resolves inside outside) :
    ∀ line ∈ alternativeLines bodyLines index, line.Resolves inside outside := by
  intro line hline
  simp only [alternativeLines, List.mem_append, List.mem_cons, List.not_mem_nil, or_false] at hline
  rcases hline with (rfl | rfl) | hline | rfl
  · exact resolves_of_nil rfl
  · exact resolves_of_nil rfl
  · exact hbody line hline
  · exact resolves_of_nil rfl

/-- **Jumps of a forest go to its own labels.** Other symbols are what its leaves refer to and the
top of the return stack. -/
theorem Forest.resolves {F : Forest} (hinside : ∀ l ∈ definedLabels (F.lines store), inside l)
    (htop : outside .returnTop)
    (htargets : ∀ l ∈ F.contents.leaves, ∀ target d, l.target? = some target →
      store.def? target = some d → outside d.label) :
    ∀ line ∈ F.lines store, line.Resolves inside outside := by
  induction F with
  | nil => exact fun _ hline => absurd hline List.not_mem_nil
  | leaf id l rest ih =>
    simp only [contents, Contents.leaves_append, List.forall_mem_append] at htargets
    simp only [lines, definedLabels_append, List.forall_mem_append] at hinside ⊢
    exact ⟨l.resolves htop (htargets.1 l (.head _)), ih hinside.2 htargets.2⟩
  | scope head inside rest ihi ihr =>
    simp only [contents, ScopeHead.node, Contents.leaves_append, List.forall_mem_append] at htargets
    simp only [lines, definedLabels_append, List.forall_mem_append] at hinside ⊢
    exact ⟨ihi hinside.1 htargets.1.1, ihr hinside.2 htargets.2⟩
  | branch j c condition b body rest ihc ihb ihr =>
    simp only [contents, ScopeHead.node, Junction.branch, Contents.leaves_append,
      List.forall_mem_append] at htargets
    simp only [lines, branchLines, definedLabels_append, List.forall_mem_append] at hinside ⊢
    obtain ⟨⟨⟨⟨-, htc, -⟩, htb, -⟩, -⟩, htr⟩ := htargets
    obtain ⟨-, hlast, hic, hib⟩ := forall_definedLabels_junctionLines hinside.1
    exact ⟨resolves_junctionLines (ihc hic htc) (ihb hib htb) hlast hlast, ihr hinside.2 htr⟩
  | fork j c condition b body a o otherwise rest ihc ihb iho ihr =>
    simp only [contents, ScopeHead.node, Junction.branch, Junction.alternative,
      Contents.leaves_append, List.forall_mem_append] at htargets
    simp only [lines, branchLines, alternativeLines, definedLabels_append,
      List.forall_mem_append] at hinside ⊢
    obtain ⟨⟨⟨⟨⟨-, htc, -⟩, htb, -⟩, -⟩, ⟨-, hto, -⟩, -⟩, htr⟩ := htargets
    obtain ⟨hbranch, ⟨hfirst, hio, hlast⟩, hir⟩ := hinside
    obtain ⟨-, -, hic, hib⟩ := forall_definedLabels_junctionLines hbranch
    have hskip := hfirst (.control .prior .alternativeBody a.index) (.head _)
    have hleave := hlast (.control .after .alternativeBody a.index) (.head _)
    refine ⟨resolves_junctionLines (ihc hic htc) (ihb hib htb) hskip hleave, ?_, ihr hir htr⟩
    have halternative := resolves_alternativeLines a.index (iho hio hto)
    simpa only [alternativeLines, List.forall_mem_append] using halternative
  | loop j c condition b body rest ihc ihb ihr =>
    simp only [contents, ScopeHead.node, Junction.loop, Contents.leaves_append,
      List.forall_mem_append] at htargets
    simp only [lines, loopLines, definedLabels_append, List.forall_mem_append] at hinside ⊢
    obtain ⟨⟨⟨⟨-, htc, -⟩, htb, -⟩, -⟩, htr⟩ := htargets
    obtain ⟨hfirst, hlast, hic, hib⟩ := forall_definedLabels_junctionLines hinside.1
    exact ⟨resolves_junctionLines (ihc hic htc) (ihb hib htb) hlast hfirst, ihr hinside.2 htr⟩

end Forests

/-! ## Definitions -/

section Definitions

open Line

variable {store : Store} {chunk : Chunk} {d : Definition} {outside : Label → Prop}

/-- **Jumps of a definition go to its own labels.** -/
theorem Chunk.resolves (htop : outside .returnTop) (hend : outside .returnEnd)
    (htargets : ∀ l ∈ chunk.contents.leaves, ∀ target d, l.target? = some target →
      store.def? target = some d → outside d.label) :
    ∀ line ∈ chunk.ownLines store d,
      line.Resolves (· ∈ definedLabels (chunk.ownLines store d)) outside := by
  unfold Chunk.ownLines
  split
  · next f head inside _ hbody =>
    simp only [Chunk.contents, hbody, ScopeHead.node, Contents.leaves_append,
      List.forall_mem_append] at htargets
    simp only [List.forall_mem_append]
    refine ⟨?_, Forest.resolves (fun l hl => ?_) htop htargets.2, ?_⟩
    · unfold prologue
      split
      all_goals
        simp only [List.forall_mem_cons, List.not_mem_nil, false_imp_iff, implies_true, and_true]
      · refine ⟨resolves_of_nil rfl, resolves_of_nil rfl, ?_, ?_⟩
        · exact resolves_of_uses rfl (List.forall_mem_singleton.mpr hend)
        · exact resolves_of_uses rfl (List.forall_mem_singleton.mpr htop)
      · refine ⟨resolves_of_nil rfl, resolves_of_nil rfl, ?_, resolves_of_nil rfl⟩
        exact resolves_of_uses rfl (List.forall_mem_singleton.mpr htop)
    · simp [definedLabels_append, hl]
    · unfold epilogue
      split
      all_goals
        simp only [List.forall_mem_cons, List.not_mem_nil, false_imp_iff, implies_true, and_true]
      · exact ⟨resolves_of_nil rfl, resolves_of_nil rfl, resolves_of_nil rfl, resolves_of_nil rfl⟩
      · refine ⟨resolves_of_nil rfl, resolves_of_nil rfl, ?_, resolves_of_nil rfl⟩
        exact resolves_of_uses rfl (List.forall_mem_singleton.mpr htop)
  · exact fun _ hline => absurd hline List.not_mem_nil
  · exact List.forall_mem_singleton.mpr (resolves_of_nil rfl)
  · exact List.forall_mem_singleton.mpr (resolves_of_nil rfl)

/-- Only functions use symbols. -/
theorem Chunk.isFunction_of_uses {line : Line} (hline : line ∈ chunk.ownLines store d)
    (huses : line.uses ≠ []) : ∃ f, d.body = .function f := by
  unfold Chunk.ownLines at hline
  split at hline
  · next f _ _ hf _ => exact ⟨f, hf⟩
  · cases hline
  · exact absurd (List.mem_singleton.mp hline ▸ rfl) huses
  · exact absurd (List.mem_singleton.mp hline ▸ rfl) huses

end Definitions

/-! ## Units -/

/-- A place in a row of rows. -/
theorem exists_of_getElem?_flatMap {α β : Type} {f : α → List β} {as : List α} {i : Nat} {b : β}
    (h : (as.flatMap f)[i]? = some b) :
    ∃ before a behind k, as = before ++ a :: behind ∧ (f a)[k]? = some b ∧
      i = (before.flatMap f).length + k := by
  induction as generalizing i with
  | nil => simp at h
  | cons a as ih =>
    rw [List.flatMap_cons] at h
    by_cases hlt : i < (f a).length
    · rw [List.getElem?_append_left hlt] at h
      exact ⟨[], a, as, i, rfl, h, by simp⟩
    · rw [List.getElem?_append_right (Nat.le_of_not_lt hlt)] at h
      obtain ⟨before, a', behind, k, rfl, hk, hi⟩ := ih h
      refine ⟨a :: before, a', behind, k, rfl, hk, ?_⟩
      rw [List.flatMap_cons, List.length_append]
      omega

/-- A line that stands among lines at a place. -/
theorem Sits.getElem? {lines xs : List Line} {a k : Nat} {line : Line} (h : Sits lines a xs)
    (hk : xs[k]? = some line) : lines[a + k]? = some line := by
  induction xs generalizing a k with
  | nil => simp at hk
  | cons x xs ih =>
    cases k with
    | zero =>
      obtain rfl : x = line := by simpa using hk
      exact h.1
    | succ k =>
      have := ih h.2 (by simpa using hk)
      rwa [Nat.add_assoc, Nat.add_comm 1 k] at this

section Units

variable {options : EmitOptions} {store : Store} {unit : List DefId} {chunks : List Chunk}

/-- The lines of a definition stand among those of the unit, and no code follows. -/
theorem sits_ownLines {first last : List (Definition × Chunk)} {q : Definition × Chunk}
    (h : keptChunks options store unit chunks = first ++ q :: last) :
    Sits (unitLines options store unit chunks)
      ((preamble options.entry).length + (first.flatMap fun q =>
        [Line.inSection q.1.sectionName] ++ (q.2.ownLines store q.1 ++ [.blank])).length + 1)
      (q.2.ownLines store q.1 ++ [.blank]) := by
  rw [unitLines, definitionLines_eq, h, List.flatMap_append, List.flatMap_cons]
  generalize List.flatMap _ first = xs
  generalize List.flatMap _ last = ys
  have hsits := sits_of_append (preamble options.entry ++ (xs ++ [.inSection q.1.sectionName]))
    (q.2.ownLines store q.1 ++ [.blank]) (ys ++ postamble)
  simpa [Nat.add_assoc] using hsits

/-- **A line that uses a symbol belongs to a definition.** -/
theorem exists_own_of_uses {i : Nat} {line : Line}
    (h : (unitLines options store unit chunks)[i]? = some line) (huses : line.uses ≠ []) :
    ∃ q ∈ keptChunks options store unit chunks, ∃ start k,
      Sits (unitLines options store unit chunks) start (q.2.ownLines store q.1) ∧
        (q.2.ownLines store q.1)[k]? = some line ∧ i = start + k := by
  have hplain (xs : List Line) (hxs : ∀ x ∈ xs, x.uses = []) (j : Nat) : xs[j]? ≠ some line :=
    fun hj => huses (hxs line (List.mem_of_getElem? hj))
  rw [unitLines, List.getElem?_append, List.getElem?_append] at h
  split at h
  · exact absurd h (hplain _ (by simp [preamble, Line.uses]) _)
  · next hbefore =>
    split at h
    · rw [definitionLines_eq] at h
      obtain ⟨first, q, last, k, hsplit, hk, hi⟩ := exists_of_getElem?_flatMap h
      cases k with
      | zero => exact absurd hk (hplain [.inSection q.1.sectionName] (by simp [Line.uses]) 0)
      | succ k =>
        rw [List.singleton_append, List.getElem?_cons_succ, List.getElem?_append] at hk
        split at hk
        · exact ⟨q, hsplit ▸ List.mem_append_right _ (.head _), _, k,
            (sits_append.mp (sits_ownLines hsplit)).1, hk, by omega⟩
        · exact absurd hk (hplain _ (by simp [Line.uses]) _)
    · exact absurd h (hplain _ (by simp [postamble, Line.uses]) _)

end Units

namespace UnitTree

variable {before after : Store} {unit : List DefId} {chunks : List Chunk} (options : EmitOptions)

/-- Lowering a unit writes its lines. -/
theorem gives_lines (h : UnitTree before after unit chunks) :
    (lowerUnit options after (emitLevels after {}) unit).Gives
      (unitLines options after unit chunks) () := by
  apply h.gives options
  have : emitLevels after {} = after.blocks.size + 1 := Nat.mul_one _
  omega

/-- What a leaf refers to is lowered. -/
theorem target_kept (h : UnitTree before after unit chunks) (husage : UnitUsage after unit chunks)
    {i : Nat} {chunk : Chunk} (hi : chunks[i]? = some chunk) {l : Leaf}
    (hl : l ∈ chunk.contents.leaves) {target : DefId} {d : Definition}
    (htarget : l.target? = some target) (hd : after.def? target = some d) :
    ∃ chunk', (d, chunk') ∈ keptChunks options after unit chunks := by
  obtain ⟨d', hd', hused⟩ := husage.targets chunk (List.mem_of_getElem? hi) l hl target htarget
  rw [hd] at hd'
  cases hd'
  have hfits := (h.chunk i chunk hi).leaves l hl
  obtain ⟨j, chunk', hj, hunit⟩ : ∃ (j : Nat) (chunk' : Chunk), chunks[j]? = some chunk' ∧
      unit[j]? = some target := by
    cases l with
    | reference token target' =>
      cases htarget
      obtain ⟨-, chunk', j, -, hj, hunit, -⟩ := hfits
      exact ⟨j, chunk', hj, hunit⟩
    | call location callee token target' =>
      cases htarget
      obtain ⟨-, chunk', ⟨j, -, hj, hunit, -⟩, -⟩ := hfits
      exact ⟨j, chunk', hj, hunit⟩
    | _ => cases htarget
  exact ⟨chunk', mem_keptChunks.mpr ⟨j, target, hunit, hj, hd, by simp [hused]⟩⟩

/-- The function a unit starts with is lowered. -/
theorem entry_kept (h : UnitTree before after unit chunks) (husage : UnitUsage after unit chunks)
    {id : DefId} {d : Definition} (hid : id ∈ unit) (hd : after.def? id = some d)
    (hentry : d.isEntry = true) : ∃ chunk, (d, chunk) ∈ keptChunks options after unit chunks := by
  obtain ⟨i, hunit⟩ := List.mem_iff_getElem?.mp hid
  obtain ⟨chunk, -, hchunk, -⟩ := h.definition_at hunit
  have hused := husage.entries id hid d hd hentry
  exact ⟨chunk, mem_keptChunks.mpr ⟨i, id, hunit, hchunk, hd, by simp [hused]⟩⟩

theorem kept_defined (h : UnitTree before after unit chunks) {q : Definition × Chunk}
    (hq : q ∈ keptChunks options after unit chunks) :
    q.1.label ∈ definedLabels (unitLines options after unit chunks) := by
  rw [(h.perm_definedLabels options).mem_iff]
  exact List.mem_append_left _ (List.mem_map.mpr ⟨_, hq, rfl⟩)

theorem end_defined (h : UnitTree before after unit chunks) {l : Label}
    (hl : l ∈ [Label.returnTop, .returnStack, .returnEnd]) :
    l ∈ definedLabels (unitLines options after unit chunks) := by
  rw [(h.perm_definedLabels options).mem_iff]
  exact List.mem_append_right _ (List.mem_append_right _ hl)

/-- **The symbols of a definition resolve.** -/
theorem resolves (h : UnitTree before after unit chunks) (husage : UnitUsage after unit chunks)
    {q : Definition × Chunk} (hq : q ∈ keptChunks options after unit chunks) :
    ∀ line ∈ q.2.ownLines after q.1, line.Resolves (· ∈ definedLabels (q.2.ownLines after q.1))
      (· ∈ definedLabels (unitLines options after unit chunks)) := by
  obtain ⟨i, hi, -, -⟩ := h.keptChunk_at options hq
  refine Chunk.resolves (h.end_defined options (by simp)) (h.end_defined options (by simp)) ?_
  intro l hl target d htarget hd
  obtain ⟨chunk', hkept⟩ := h.target_kept options husage hi hl htarget hd
  exact h.kept_defined options hkept

/-- The blocks of a function that is lowered. -/
theorem function_tree (h : UnitTree before after unit chunks) {q : Definition × Chunk}
    (hq : q ∈ keptChunks options after unit chunks) {f : Function} (hf : q.1.body = .function f) :
    ∃ head inside, q.2.body = some (head, inside) ∧ f.body = head.id ∧
      after.block? head.id = some (head.block inside.tops) ∧ inside.contents.Stored after ∧
      (∀ l ∈ inside.contents.leaves, l ∈ q.2.contents.leaves ∧ l.Lowers after) ∧
      inside.height ≤ after.blocks.size := by
  obtain ⟨i, hi, hmarked, -⟩ := h.keptChunk_at options hq
  have hfits := (h.chunk i q.2 hi).fits
  have hmem := List.mem_of_getElem? hi
  have hstored := h.stored_chunk hmem
  have hleaves := h.lowers hi
  have hlength := h.length_nodes_le hmem
  have hsame : q.1.body = q.2.definition.body := (Definition.mk.inj hmarked).2.2.2.2.2
  rw [Chunk.Fits, ← hsame, hf] at hfits
  cases hbody : q.2.body with
  | none =>
    rw [hbody] at hfits
    exact hfits.elim
  | some tree =>
    obtain ⟨head, inside⟩ := tree
    rw [hbody] at hfits
    have hinside : ∀ l ∈ inside.contents.leaves, l ∈ q.2.contents.leaves := by
      intro l hl
      simp [Chunk.contents, hbody, hl]
    have hheight := inside.height_le
    simp only [Chunk.contents, hbody, ScopeHead.node, Contents.stored_append, Contents.stored_node,
      Contents.nodes_append, List.length_append] at hstored hlength
    exact ⟨head, inside, rfl, hfits, hstored.1, hstored.2,
      fun l hl => ⟨hinside l hl, hleaves l (hinside l hl)⟩, by omega⟩

/-- Lowering a function of a unit writes its lines. -/
theorem function_gives (h : UnitTree before after unit chunks) {q : Definition × Chunk}
    (hq : q ∈ keptChunks options after unit chunks) {f : Function} (hf : q.1.body = .function f) :
    (lowerFunction after (emitLevels after {}) q.1 f).Gives (q.2.ownLines after q.1) () := by
  obtain ⟨head, inside, hbody, hhead, hnode, hstored, hleaves, hheight⟩ :=
    h.function_tree options hq hf
  have hlevels : emitLevels after {} = after.blocks.size + 1 := Nat.mul_one _
  rw [Chunk.ownLines, hf, hbody]
  exact lowerFunction_gives q.1 hhead hnode hstored (fun l hl => (hleaves l hl).2) (by omega)

end UnitTree

/-- **The symbols of an assembly text.** Every symbol that is used is defined, jumps stay in their
function, and labels are spelled differently, apart from the name of the function the program starts
with. -/
structure ClosedSymbols (store : Store) (unit : List DefId) (lines : List Line) : Prop where
  /-- Every symbol that is used is defined. -/
  defined : ∀ line ∈ lines, ∀ l ∈ line.uses, l ∈ definedLabels lines
  /-- A jump and its label stand in the lines of the same function. -/
  inside : ∀ (i : Nat) (line : Line) (l : Label), lines[i]? = some line → line.goesTo? = some l →
    ∃ id ∈ unit, ∃ (d : Definition) (f : Function) (start : Nat) (own : List Line),
      store.def? id = some d ∧ d.body = .function f ∧
      (lowerFunction store (emitLevels store {}) d f).Gives own () ∧ Sits lines start own ∧
      start ≤ i ∧ i < start + own.length ∧ l ∈ definedLabels own
  /-- No label is defined twice. -/
  once : (definedLabels lines).Nodup
  /-- Labels that are made up are spelled differently. -/
  distinct : (((definedLabels lines).filter fun l => !l.isEntry).map Label.name).Nodup

theorem UnitTree.closedSymbols {before after : Store} {unit : List DefId} {chunks : List Chunk}
    (options : EmitOptions) (h : UnitTree before after unit chunks)
    (husage : UnitUsage after unit chunks) :
    ClosedSymbols after unit (unitLines options after unit chunks) where
  defined line hline l hl := by
    obtain ⟨i, hi⟩ := List.mem_iff_getElem?.mp hline
    obtain ⟨q, hq, start, k, hsits, hk, -⟩ := exists_own_of_uses hi (List.ne_nil_of_mem hl)
    have hown := h.resolves options husage hq line (List.mem_of_getElem? hk)
    rcases hown.2 l hl with hinside | houtside
    · refine definedLabels_subset (fun x hx => ?_) hinside
      obtain ⟨j, hj⟩ := List.mem_iff_getElem?.mp hx
      exact List.mem_of_getElem? (hsits.getElem? hj)
    · exact houtside
  inside i line l hi hl := by
    have huses : line.uses ≠ [] := List.ne_nil_of_mem (Line.mem_uses_of_goesTo? hl)
    obtain ⟨q, hq, start, k, hsits, hk, rfl⟩ := exists_own_of_uses hi huses
    have hmem := List.mem_of_getElem? hk
    obtain ⟨f, hf⟩ := Chunk.isFunction_of_uses hmem huses
    obtain ⟨j, id, hunit, -, hd, -⟩ := mem_keptChunks.mp hq
    refine ⟨id, List.mem_of_getElem? hunit, q.1, f, start, _, hd, hf,
      h.function_gives options hq hf, hsits, Nat.le_add_right _ _, ?_, ?_⟩
    · exact Nat.add_lt_add_left (List.getElem?_eq_some_iff.mp hk).1 start
    · exact (h.resolves options husage hq line hmem).1 l hl
  once := h.nodup_definedLabels options husage
  distinct := by
    refine List.Nodup.map_on (fun l hl l' hl' heq => ?_)
      ((h.nodup_definedLabels options husage).filter _)
    rw [List.mem_filter, Bool.not_eq_true'] at hl hl'
    exact Label.eq_of_name hl.2 hl'.2 heq

/-- **The symbols of an accepted text are closed**, whether or not definitions are left out. -/
theorem closedSymbols_of_parseChars {options : ParseOptions} {store : Store} {source : List Char}
    {unit : List DefId} (h : (parseChars options store source).outcome = .ok unit)
    (emit : EmitOptions) :
    let after := (parseChars options store source).store
    ∃ lines, (lowerUnit emit after (emitLevels after {}) unit).Gives lines () ∧
      ClosedSymbols after unit lines := by
  intro after
  have hparsed : parseChars options store source = ⟨.ok unit, after⟩ := by rw [← h]
  obtain ⟨chunks, hunit, husage⟩ := unitUsage_of_parseChars hparsed
  exact ⟨_, hunit.gives_lines emit, hunit.closedSymbols emit husage⟩

/-- A unit with all kinds of symbols, of which some are left out. -/
theorem closedSymbols_stripped :
    let parsed := parseChars {} (Store.empty 100)
      "mem m 8 str s \"hi\" func f { m } func g { s } func main { if (1) { f call } else { } }".toList
    let unit : List DefId := [⟨0, 0⟩, ⟨1, 0⟩, ⟨2, 0⟩, ⟨3, 0⟩, ⟨4, 0⟩]
    parsed.outcome = .ok unit ∧
      ∃ lines, (lowerUnit ⟨"main", true⟩ parsed.store (emitLevels parsed.store {}) unit).Gives lines
        () ∧ ClosedSymbols parsed.store unit lines :=
  ⟨by decide +kernel, closedSymbols_of_parseChars (by decide +kernel) ⟨"main", true⟩⟩

end StackCompiler
