import StackCompiler.Proofs.Symbol.Closure

/-!
# The symbol a program starts with

The function the program starts with keeps its name, and nothing keeps this name apart from the
labels that the compiler makes up.

* `MadeUp`: the labels that are made up for a unit.
* **`entry_once_iff_of_parseChars`**: the name stands once among the labels exactly if no label is made
  up that is spelled like it.
* `entry_twice`: a program with two labels of one name.
-/

namespace StackCompiler

open Relation

/-- **The labels that are made up for a unit**: those of the return stack, of the definitions that are
lowered, and of the branches, alternatives and loops below them. -/
inductive MadeUp (options : EmitOptions) (store : Store) (unit : List DefId) : Label → Prop where
  | returnStack {l : Label} (hl : l ∈ [Label.returnTop, .returnStack, .returnEnd]) :
      MadeUp options store unit l
  | definition {id : DefId} {d : Definition} (hid : id ∈ unit) (hd : store.def? id = some d)
      (hkept : (options.strip && !d.used) = false) (hentry : d.isEntry = false) :
      MadeUp options store unit d.label
  | block {id : DefId} {d : Definition} {body x : BlockId} {block : Block} {l : Label}
      (hid : id ∈ unit) (hd : store.def? id = some d) (hkept : (options.strip && !d.used) = false)
      (hbody : d.body? = some body) (hreach : ReflTransGen (Owns store) body x)
      (hblock : store.block? x = some block) (hl : l ∈ block.labels) : MadeUp options store unit l

theorem MadeUp.isEntry_eq {options : EmitOptions} {store : Store} {unit : List DefId} {l : Label}
    (h : MadeUp options store unit l) : l.isEntry = false := by
  cases h with
  | returnStack hl =>
    simp only [List.mem_cons, List.not_mem_nil, or_false] at hl
    rcases hl with rfl | rfl | rfl <;> rfl
  | @definition id d _ _ _ hentry => rw [d.isEntry_label, hentry]
  | block _ _ _ _ _ _ hl =>
    have := Block.isControl_labels hl
    cases l with
    | entry name => cases this
    | _ => rfl

/-- A name stands once in a row of labels if no other label is spelled like it. -/
theorem count_name_eq_one_iff {labels : List Label} (hnodup : labels.Nodup) {a : Label}
    (ha : a ∈ labels) :
    (labels.map Label.name).count a.name = 1 ↔ ∀ l ∈ labels, l ≠ a → l.name ≠ a.name := by
  rw [((List.perm_cons_erase ha).map Label.name).count_eq, List.map_cons, List.count_cons_self,
    Nat.add_eq_right, List.count_eq_zero]
  constructor
  · intro hnone l hl hne heq
    exact hnone (List.mem_map.mpr ⟨l, hnodup.mem_erase_iff.mpr ⟨hne, hl⟩, heq⟩)
  · intro hother hmem
    obtain ⟨l, hl, heq⟩ := List.mem_map.mp hmem
    obtain ⟨hne, hl⟩ := hnodup.mem_erase_iff.mp hl
    exact hother l hl hne heq

namespace UnitTree

variable {before after : Store} {unit : List DefId} {chunks : List Chunk} {options : EmitOptions}

theorem owns_mem (h : UnitTree before after unit chunks) {chunk : Chunk} (hchunk : chunk ∈ chunks)
    {a x : BlockId} (ha : a ∈ chunk.contents.ids) (hax : ReflTransGen (Owns after) a x) :
    x ∈ chunk.contents.ids := by
  induction hax with
  | refl => exact ha
  | tail _ howns ih => exact h.owned_mem hchunk ih howns

/-- **What a unit defines is made up**, apart from the name of the function it starts with. -/
theorem mem_definedLabels_iff (h : UnitTree before after unit chunks) {l : Label}
    (hl : l.isEntry = false) :
    l ∈ definedLabels (unitLines options after unit chunks) ↔ MadeUp options after unit l := by
  rw [(h.perm_definedLabels options).mem_iff, List.mem_append, List.mem_append]
  constructor
  · rintro (hmem | hmem | hmem)
    · obtain ⟨q, hq, rfl⟩ := List.mem_map.mp hmem
      obtain ⟨i, id, hunit, -, hd, hkept⟩ := mem_keptChunks.mp hq
      rw [q.1.isEntry_label] at hl
      exact .definition (List.mem_of_getElem? hunit) hd hkept hl
    · obtain ⟨q, hq, hmem⟩ := List.mem_flatMap.mp hmem
      obtain ⟨p, hp, hlabel⟩ := List.mem_flatMap.mp hmem
      obtain ⟨i, id, hunit, hchunk, hd, hkept⟩ := mem_keptChunks.mp hq
      obtain ⟨-, -, hmarked, -⟩ := h.keptChunk_at options hq
      have hstored := h.stored_chunk (List.mem_of_getElem? hchunk)
      obtain ⟨body, hbody, hreach⟩ := Chunk.reached hstored p.1 (List.mem_map_of_mem hp)
      rw [Option.mem_toList, ← Chunk.root?_eq (h.chunk i q.2 hchunk).fits hmarked] at hbody
      exact .block (List.mem_of_getElem? hunit) hd hkept hbody hreach (hstored p hp) hlabel
    · exact .returnStack hmem
  · intro hmade
    cases hmade with
    | returnStack hmem => exact .inr (.inr hmem)
    | @definition id d hid hd hkept hentry =>
      obtain ⟨i, hunit⟩ := List.mem_iff_getElem?.mp hid
      obtain ⟨chunk, d', hchunk, -⟩ := h.definition_at hunit
      have hq : (d, chunk) ∈ keptChunks options after unit chunks :=
        mem_keptChunks.mpr ⟨i, id, hunit, hchunk, hd, hkept⟩
      exact .inl (List.mem_map.mpr ⟨_, hq, rfl⟩)
    | @block id d body x block _ hid hd hkept hbody hreach hblock hmem =>
      obtain ⟨i, hunit⟩ := List.mem_iff_getElem?.mp hid
      obtain ⟨chunk, d', hchunk, hd', hmarked, -⟩ := h.definition_at hunit
      rw [hd] at hd'
      cases hd'
      have hq : (d, chunk) ∈ keptChunks options after unit chunks :=
        mem_keptChunks.mpr ⟨i, id, hunit, hchunk, hd, hkept⟩
      rw [Chunk.root?_eq (h.chunk i chunk hchunk).fits hmarked] at hbody
      have hchunk := List.mem_of_getElem? hchunk
      have hx := h.owns_mem hchunk (Chunk.root_mem hbody) hreach
      refine .inr (.inl (List.mem_flatMap.mpr ⟨_, hq, ?_⟩))
      exact List.mem_flatMap.mpr ⟨_, h.mem_nodes hchunk hx hblock, hmem⟩

/-- **The name a unit starts with stands once among its labels** exactly if no label that is made up
is spelled like it. -/
theorem entry_once_iff (h : UnitTree before after unit chunks) (husage : UnitUsage after unit chunks)
    {id : DefId} {d : Definition} (hid : id ∈ unit) (hd : after.def? id = some d)
    (hentry : d.isEntry = true) :
    ((definedLabels (unitLines options after unit chunks)).map Label.name).count d.name = 1 ↔
      ∀ l, MadeUp options after unit l → l.name ≠ d.name := by
  have hdefined : .entry d.name ∈ definedLabels (unitLines options after unit chunks) := by
    obtain ⟨chunk, hq⟩ := h.entry_kept options husage hid hd hentry
    rw [← Definition.label_of_isEntry hentry]
    exact h.kept_defined options hq
  rw [show d.name = (Label.entry d.name).name from rfl,
    count_name_eq_one_iff (h.nodup_definedLabels options husage) hdefined]
  constructor
  · intro hother l hmade
    have hl : l.isEntry = false := hmade.isEntry_eq
    refine hother l ((h.mem_definedLabels_iff hl).mpr hmade) fun heq => ?_
    rw [heq] at hl
    cases hl
  · intro hmade l hl hne heq
    cases hkind : l.isEntry with
    | false => exact hmade l ((h.mem_definedLabels_iff hkind).mp hl) heq
    | true =>
      -- Names of functions are labels as they are.
      cases l with
      | entry name => exact hne (congrArg Label.entry heq)
      | _ => cases hkind

end UnitTree

/-- **The name a program starts with stands once among its labels** exactly if no label that is made
up for the program is spelled like it. -/
theorem entry_once_iff_of_parseChars {options : ParseOptions} {store : Store} {source : List Char}
    {unit : List DefId} (h : (parseChars options store source).outcome = .ok unit)
    (emit : EmitOptions) {id : DefId} {d : Definition} (hid : id ∈ unit)
    (hd : (parseChars options store source).store.def? id = some d) (hentry : d.isEntry = true) :
    let after := (parseChars options store source).store
    ∃ lines, (lowerUnit emit after (emitLevels after {}) unit).Gives lines () ∧
      (((definedLabels lines).map Label.name).count d.name = 1 ↔
        ∀ l, MadeUp emit after unit l → l.name ≠ d.name) := by
  intro after
  have hparsed : parseChars options store source = ⟨.ok unit, after⟩ := by rw [← h]
  obtain ⟨chunks, hunit, husage⟩ := unitUsage_of_parseChars hparsed
  exact ⟨_, hunit.gives_lines emit, hunit.entry_once_iff husage hid hd hentry⟩

/-- A program that starts with a function of an ordinary name. -/
theorem entry_once_main :
    let parsed := parseChars {} (Store.empty 100) "func main { loop (0) { } }".toList
    ∃ d lines, parsed.store.def? ⟨0, 0⟩ = some d ∧
      (lowerUnit {} parsed.store (emitLevels parsed.store {}) [⟨0, 0⟩]).Gives lines () ∧
      (((definedLabels lines).map Label.name).count d.name = 1 ↔
        ∀ l, MadeUp {} parsed.store [⟨0, 0⟩] l → l.name ≠ d.name) := by
  intro parsed
  have hentry : (parsed.store.def? ⟨0, 0⟩).map Definition.isEntry = some true := by decide +kernel
  obtain ⟨d, hd, hentry⟩ := Option.map_eq_some_iff.mp hentry
  have hparsed : parsed.outcome = .ok [⟨0, 0⟩] := by decide +kernel
  obtain ⟨lines, hlines⟩ := entry_once_iff_of_parseChars hparsed {} (.head _) hd hentry
  exact ⟨d, lines, hd, hlines⟩

/-- **Two labels of one name**: a program that starts with a function whose name is the symbol of
another function. -/
theorem entry_twice :
    let parsed := parseChars ⟨"func_1", 256⟩ (Store.empty 100) "func func_1 { } func g { }".toList
    let lines := (lowerUnit ⟨"func_1", false⟩ parsed.store (emitLevels parsed.store {})
      [⟨0, 0⟩, ⟨1, 0⟩] {}).lines
    parsed.outcome = .ok [⟨0, 0⟩, ⟨1, 0⟩] ∧
      (parsed.store.def? ⟨0, 0⟩).map Definition.isEntry = some true ∧
      ((definedLabels lines).map Label.name).count "func_1" = 2 := by
  decide +kernel

end StackCompiler
