import StackCompiler.Proofs.Lowering.Outcome
import StackCompiler.Proofs.Tree.Reference

/-!
# Unused definitions

What is left out on request, and what is warned about otherwise, are the same definitions: those that
the program neither starts with nor refers to anywhere. Leaving them out removes their segments from
the code and changes nothing else.

* `Compilation.IsUnused`: a definition that nothing needs.
* `Compilation.segment`: the code of one definition.
* **`StripsUnused`**: code and warnings, with and without unused definitions.
* **`compile_strips`**: compiling a source that is accepted.
-/

namespace StackCompiler

/-! ## Statements -/

/-- The definition is the function of a given name. -/
def Definition.IsFunctionNamed (name : String) (d : Definition) : Prop :=
  d.isFunction = true ∧ d.name = name

instance (name : String) (d : Definition) : Decidable (d.IsFunctionNamed name) :=
  inferInstanceAs (Decidable (_ ∧ _))

/-- The bytes of lines of assembly. -/
def assemblyBytes (lines : List Line) : List UInt8 := Utf8.encode (assemblyText lines).toList

namespace Compilation

/-- **Nothing needs a definition**: it is not the function that the program starts with, and no name
in the body of a function of the unit stands for it. -/
def IsUnused (entry : String) (c : Compilation) (id : DefId) : Prop :=
  (∀ d, c.store.def? id = some d → ¬ d.IsFunctionNamed entry) ∧
    ¬ IsReferenced c.store c.unit id

/-- **The code of one definition.** -/
def segment (settings : Settings) (c : Compilation) (device : Device) (id : DefId) : List UInt8 :=
  assemblyBytes
    (lowerDef settings.emitOptions c.store (emitLevels c.store device) id device).lines

/-- The definitions that are not marked as used, in order. -/
def unmarked (c : Compilation) : List DefId :=
  c.unit.filter fun id => (c.store.def? id).any fun d => !d.used

/-- The warning about the function that the program starts with, unless the unit has one. -/
def missingEntry (entry : String) (c : Compilation) : List Diagnostic :=
  if ∃ d ∈ c.definitions, d.IsFunctionNamed entry then []
  else [.warning ("entry function '" ++ entry ++ "' is not defined") none]

end Compilation

/-- **Code and warnings with and without unused definitions.** -/
structure StripsUnused (settings : Settings) (c : Compilation) (device : Device)
    (unused : List DefId) (full stripped : Compiled) : Prop where
  /-- The unused definitions, in the order of the source and each of them once. -/
  nodup : c.unit.Nodup
  sublist : unused.Sublist c.unit
  mem_iff : ∀ id ∈ c.unit, id ∈ unused ↔ c.IsUnused settings.entry id
  /-- Every definition has code. Exactly the unused ones are left out; the others keep theirs. -/
  segment_ne_nil : ∀ id ∈ c.unit, c.segment { settings with strip := false } device id ≠ []
  segment_strip : ∀ id ∈ c.unit, c.segment { settings with strip := true } device id =
    if id ∈ unused then [] else c.segment { settings with strip := false } device id
  /-- The code is that of the definitions in order, between what comes before and after all of
  them. -/
  full_bytes : full.bytes = assemblyBytes (preamble settings.entry) ++
    (c.unit.flatMap (c.segment { settings with strip := false } device) ++ assemblyBytes postamble)
  stripped_bytes : stripped.bytes = assemblyBytes (preamble settings.entry) ++
    ((c.unit.filter (· ∉ unused)).flatMap (c.segment { settings with strip := false } device) ++
      assemblyBytes postamble)
  full_outcome : full.outcome = .ok c
  stripped_outcome : stripped.outcome = .ok c
  /-- One warning for each of the unused definitions in order, and perhaps one more. -/
  full_warnings : ∃ reports,
    List.Forall₂ (fun id report => ∃ d, c.store.def? id = some d ∧
      report = Compilation.unusedWarning d) unused reports ∧
    Diagnostic.ofSeverity .warning full.diagnostics = reports ++ c.missingEntry settings.entry
  stripped_warnings :
    Diagnostic.ofSeverity .warning stripped.diagnostics = c.missingEntry settings.entry

theorem Compilation.mem_unmarked {c : Compilation} {id : DefId} {d : Definition} (hid : id ∈ c.unit)
    (hd : c.store.def? id = some d) : id ∈ c.unmarked ↔ d.used = false := by
  simp [unmarked, hid, hd]

/-! ## Bytes -/

theorem assemblyBytes_append (lines lines' : List Line) :
    assemblyBytes (lines ++ lines') = assemblyBytes lines ++ assemblyBytes lines' := by
  simp [assemblyBytes, assemblyText, Utf8.encode, String.toList_join]

theorem assemblyBytes_flatMap {α : Type} (f : α → List Line) (as : List α) :
    assemblyBytes (as.flatMap f) = as.flatMap fun a => assemblyBytes (f a) := by
  induction as with
  | nil => rfl
  | cons a as ih => rw [List.flatMap_cons, assemblyBytes_append, ih, List.flatMap_cons]

theorem assemblyBytes_cons_ne_nil (line : Line) (lines : List Line) :
    assemblyBytes (line :: lines) ≠ [] := by
  have hline : assemblyBytes [line] ≠ [] := by
    simp [assemblyBytes, assemblyText, Utf8.encode, String.utf8EncodeChar_ne_nil]
  rw [← List.singleton_append, assemblyBytes_append]
  exact List.append_ne_nil_of_left_ne_nil hline _

/-! ## Rows -/

section Rows

variable {α β : Type}

/-- What stands in a row if some of its places are empty. -/
theorem flatMap_eq_flatMap_filter {f g : α → List β} {p : α → Bool} {as : List α}
    (h : ∀ a ∈ as, f a = if p a then g a else []) :
    as.flatMap f = (as.filter p).flatMap g := by
  induction as with
  | nil => rfl
  | cons a as ih =>
    rw [List.forall_mem_cons] at h
    rw [List.flatMap_cons, ih h.2, h.1, List.filter_cons]
    split
    · rfl
    · rfl

/-- Rows of what is found and what it is found for, thinned out alike. -/
theorem forall₂_filter_filterMap {f : α → Option β} (p : β → Bool) {as : List α}
    (h : ∀ a ∈ as, ∃ b, f a = some b) :
    List.Forall₂ (fun a b => f a = some b) (as.filter fun a => (f a).any p)
      ((as.filterMap f).filter p) := by
  induction as with
  | nil => exact .nil
  | cons a as ih =>
    obtain ⟨⟨b, hb⟩, hrest⟩ := List.forall_mem_cons.mp h
    rw [List.filterMap_cons_some hb, List.filter_cons, List.filter_cons, hb, Option.any_some]
    split
    · exact .cons hb (ih hrest)
    · exact ih hrest

end Rows

/-! ## Code -/

namespace UnitTree

variable {before : Store} {c : Compilation} {chunks : List Chunk}

/-- **The code of a definition**, given its chunk. -/
theorem segment_at (h : UnitTree before c.store c.unit chunks) {p : DefId × Chunk}
    (hp : p ∈ c.unit.zip chunks) :
    ∃ d, c.store.def? p.1 = some d ∧ d.marked = p.2.definition.marked ∧ ∀ settings reason,
      c.segment settings ⟨none, reason⟩ p.1 =
        assemblyBytes (p.2.lines settings.emitOptions c.store d) := by
  obtain ⟨i, hi⟩ := List.mem_iff_getElem?.mp hp
  obtain ⟨hunit, hchunk⟩ := List.getElem?_zip_eq_some.mp hi
  obtain ⟨chunk, d, hchunk', hd, hmarked, -⟩ := h.definition_at hunit
  rw [hchunk] at hchunk'
  cases hchunk'
  refine ⟨d, hd, hmarked, fun settings reason => ?_⟩
  have hlevels : c.store.blocks.size ≤ emitLevels c.store ⟨none, reason⟩ := by simp [emitLevels]
  rw [Compilation.segment, h.gives_at settings.emitOptions hlevels hp reason, hd]
  rfl

theorem segment_eq (h : UnitTree before c.store c.unit chunks) {id : DefId} (hid : id ∈ c.unit) :
    ∃ (d : Definition) (chunk : Chunk), c.store.def? id = some d ∧ ∀ settings reason,
      c.segment settings ⟨none, reason⟩ id =
        assemblyBytes (chunk.lines settings.emitOptions c.store d) := by
  rw [← List.map_fst_zip (Nat.le_of_eq h.length), List.mem_map] at hid
  obtain ⟨p, hp, rfl⟩ := hid
  obtain ⟨d, hd, -, hsegment⟩ := h.segment_at hp
  exact ⟨d, p.2, hd, hsegment⟩

/-- **The code of a unit** is that of its definitions, between what comes before and after all of
them. -/
theorem bytes_eq (h : UnitTree before c.store c.unit chunks) (settings : Settings)
    (reason : String) :
    (c.emit settings ⟨none, reason⟩).bytes = assemblyBytes (preamble settings.entry) ++
      (c.unit.flatMap (c.segment settings ⟨none, reason⟩) ++ assemblyBytes postamble) := by
  rw [(h.isWhole settings reason).2.bytes_eq]
  change assemblyBytes _ = _
  rw [assemblyBytes_append, assemblyBytes_append, assemblyBytes_flatMap]
  rfl

end UnitTree

/-! ## Warnings -/

namespace Compilation

variable {settings : Settings} {c : Compilation}

/-- Notes are no warnings. -/
theorem ofSeverity_findings (times : StageTimes) (written : Written) :
    Diagnostic.ofSeverity .warning (c.parseFindings settings times.parse ++
      emitFindings settings times.emit written) = c.warnings settings := by
  have hnotes : Diagnostic.ofSeverity .warning (emitFindings settings times.emit written) = [] := by
    unfold emitFindings
    split
    · split_ifs <;> rfl
    · rfl
  have hwarnings : Diagnostic.ofSeverity .warning (c.warnings settings) = c.warnings settings := by
    refine List.filter_eq_self.mpr fun d hd => ?_
    rcases List.mem_append.mp hd with hd | hd
    · obtain ⟨_, -, rfl⟩ := List.mem_map.mp hd
      rfl
    · split_ifs at hd
      · cases hd
      · rw [List.mem_singleton.mp hd]
        rfl
  rw [Diagnostic.ofSeverity, List.filter_append, parseFindings, List.filter_append]
  change Diagnostic.ofSeverity .warning _ ++ Diagnostic.ofSeverity .warning _ ++
    Diagnostic.ofSeverity .warning _ = _
  rw [hnotes, hwarnings, List.append_nil]
  split_ifs <;> rfl

end Compilation

/-- **Compiling a source that is accepted**, on a device that takes any number of bytes. -/
theorem compile_of_ofBytes {settings : Settings} {source : List UInt8} {c : Compilation}
    (h : Compilation.ofBytes settings source = .ok c) (reason : String) (times : StageTimes) :
    let compiled := compile settings source ⟨none, reason⟩ times
    compiled.outcome = .ok c ∧ compiled.bytes = (c.emit settings ⟨none, reason⟩).bytes ∧
      Diagnostic.ofSeverity .warning compiled.diagnostics = c.warnings settings := by
  intro compiled
  obtain ⟨text, hparse⟩ := ofBytes_eq_ok h
  obtain ⟨chunks, htree⟩ := unitTree_of_parseChars hparse
  have hcompiled : compiled = compile settings source ⟨none, reason⟩ times := rfl
  simp only [compile, h, (htree.isWhole settings reason).1] at hcompiled
  rw [hcompiled]
  exact ⟨rfl, rfl, Compilation.ofSeverity_findings times _⟩

/-! ## Unused definitions -/

namespace UnitReasons

variable {entry : String} {c : Compilation} (h : UnitReasons entry c.store c.unit)

include h

/-- **Nothing needs a definition exactly if it is not marked as used.** -/
theorem isUnused_iff {id : DefId} {d : Definition} (hid : id ∈ c.unit)
    (hd : c.store.def? id = some d) : c.IsUnused entry id ↔ d.used = false := by
  have hentry : d.isEntry = true ↔ d.IsFunctionNamed entry := h.entries id hid d hd
  rw [← Bool.not_eq_true, h.used id hid d hd, not_or, hentry, Compilation.IsUnused]
  refine and_congr_left fun _ => ⟨fun hnone => hnone d hd, fun hnone d' hd' => ?_⟩
  rw [hd] at hd'
  cases hd'
  exact hnone

/-- The program starts with the function of the given name. -/
theorem missingEntry_eq :
    c.missingEntry entry = if c.definitions.any Definition.isEntry then []
      else [.warning ("entry function '" ++ entry ++ "' is not defined") none] := by
  have hany : (∃ d ∈ c.definitions, d.IsFunctionNamed entry) ↔
      c.definitions.any Definition.isEntry = true := by
    rw [List.any_eq_true]
    refine exists_congr fun d => and_congr_right fun hmem => ?_
    obtain ⟨id, hid, hd⟩ := List.mem_filterMap.mp hmem
    exact (h.entries id hid d hd).symm
  rw [Compilation.missingEntry]
  simp only [hany]

end UnitReasons

namespace UnitTree

variable {before : Store} {c : Compilation} {chunks : List Chunk}

/-- **What is left out** is the code of definitions that are not marked as used. -/
theorem segment_strip (h : UnitTree before c.store c.unit chunks) (settings : Settings)
    (reason : String) {id : DefId} (hid : id ∈ c.unit) :
    c.segment { settings with strip := false } ⟨none, reason⟩ id ≠ [] ∧
      c.segment { settings with strip := true } ⟨none, reason⟩ id = if id ∈ c.unmarked then []
        else c.segment { settings with strip := false } ⟨none, reason⟩ id := by
  obtain ⟨d, chunk, hd, hsegment⟩ := h.segment_eq hid
  have hmem := Compilation.mem_unmarked hid hd
  have hkept (options : EmitOptions) (hoptions : (options.strip && !d.used) = false) :
      chunk.lines options c.store d =
        .inSection d.sectionName :: (chunk.ownLines c.store d ++ [.blank]) := by
    rw [Chunk.lines, hoptions]
    rfl
  rw [hsegment, hsegment, hkept _ rfl]
  refine ⟨assemblyBytes_cons_ne_nil _ _, ?_⟩
  split
  · next hunused =>
    rw [Chunk.lines, hmem.mp hunused]
    rfl
  · next hkeeps =>
    have hused : d.used = true := by simpa [hmem] using hkeeps
    rw [hkept _ (by rw [hused, Bool.not_true, Bool.and_false])]

/-- **One warning for each definition that is not marked as used**, in order. -/
theorem forall₂_unmarked (h : UnitTree before c.store c.unit chunks) :
    List.Forall₂ (fun id report => ∃ d, c.store.def? id = some d ∧
      report = Compilation.unusedWarning d) c.unmarked
      ((c.definitions.filter fun d => !d.used).map Compilation.unusedWarning) := by
  rw [List.forall₂_map_right_iff]
  exact (forall₂_filter_filterMap _ fun _ => h.exists_def).imp fun _ d hd => ⟨d, hd, rfl⟩

end UnitTree

end StackCompiler
