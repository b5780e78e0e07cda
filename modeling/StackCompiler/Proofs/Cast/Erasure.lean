import StackCompiler.Proofs.Cast.Build
import StackCompiler.Proofs.Cast.Text
import StackCompiler.Proofs.Chain.WrittenOut
import StackCompiler.Proofs.Lowering.Leaves
import StackCompiler.Proofs.Text.Utf8

/-!
# Casts can be left out

Casts make no code. They take no number from branches and loops, and stand for no name. So a text that
is accepted is accepted without them, and gives the same definitions with the same code. Only the
tokens have other places and numbers.

* `Compilation.Uncasts`: units that are the same without casts.
* `parseChars_eraseCasts`: texts without some casts.
* **`compile_eraseCasts`**: compiling a source without some casts.
-/

namespace StackCompiler

/-- **The second unit is the first one without some casts**, up to places and numbers of tokens. -/
structure Compilation.Uncasts (c c' : Compilation) : Prop where
  /-- The same handles stand for the definitions. -/
  unit_eq : c'.unit = c.unit
  /-- They stand for the same definitions, whose bodies have other handles. -/
  definitions_eq : ∀ id, (c'.store.def? id).map (fun d => d.plain.detached) =
    (c.store.def? id).map fun d => d.plain.detached
  /-- The other blocks are made in the same order. Branches, alternatives and loops keep their
  numbers. -/
  blocks_eq : (c'.store.blocks.toList.map Block.plain).filterMap Block.kept? =
    (c.store.blocks.toList.map Block.plain).filterMap Block.kept?
  /-- The lines differ in the numbers of tokens in remarks only. -/
  lines_eq : ∀ settings reason, (c'.linesOn settings ⟨none, reason⟩).map Line.plain =
    (c.linesOn settings ⟨none, reason⟩).map Line.plain

theorem Block.kept?_plain (block : Block) : block.plain.kept? = block.kept?.map Block.plain := by
  cases block <;> rfl

theorem Definition.detached_plain (d : Definition) : d.plain.detached = d.detached.plain := by
  obtain ⟨_, _, _, _, _, body⟩ := d
  cases body <;> rfl

/-- The blocks that are kept, before or after places are left out. -/
theorem filterMap_kept_plain (blocks : List Block) :
    (blocks.map Block.plain).filterMap Block.kept? =
      (blocks.filterMap Block.kept?).map Block.plain := by
  rw [List.filterMap_map, List.map_filterMap]
  exact congrArg (List.filterMap · blocks) (funext Block.kept?_plain)

/-- **The lines of a unit** are those of its chunks. -/
theorem UnitTree.linesOn {before : Store} {c : Compilation} {chunks : List Chunk}
    (h : UnitTree before c.store c.unit chunks) (settings : Settings) (reason : String) :
    c.linesOn settings ⟨none, reason⟩ = unitLines settings.emitOptions c.store c.unit chunks :=
  congrArg Emitted.lines
    (h.gives settings.emitOptions (size_blocks_le_emitLevels c.store _) reason)

/-- A unit without some casts, up to places and numbers of tokens. -/
theorem Workspace.Sheds.uncasts {w v : Workspace} (hsheds : w.Sheds v) {after : Store}
    (hplain : after.plain = v.store.plain) {unit : List DefId}
    (hlines : ∀ settings reason, Compilation.linesOn settings ⟨v.store, unit⟩ ⟨none, reason⟩ =
      Compilation.linesOn settings ⟨w.store, unit⟩ ⟨none, reason⟩) :
    Compilation.Uncasts ⟨w.store, unit⟩ ⟨after, unit⟩ := by
  refine ⟨rfl, fun id => ?_, ?_, fun settings reason => ?_⟩
  · have hafter : (after.def? id).map Definition.plain = (v.store.def? id).map Definition.plain := by
      rw [← Store.def?_plain, hplain, Store.def?_plain]
    have hdetached := congrArg (Option.map Definition.plain) (hsheds.def? id)
    have hsame := congrArg (Option.map Definition.detached) hafter
    simp only [Option.map_map, Function.comp_def, Definition.detached_plain] at hsame hdetached ⊢
    rw [hsame, hdetached]
  · have hafter : after.blocks.toList.map Block.plain = v.store.blocks.toList.map Block.plain := by
      simpa [Store.plain] using congrArg (fun store => store.blocks.toList) hplain
    rw [hafter, filterMap_kept_plain, filterMap_kept_plain, hsheds.blocks]
  · rw [Compilation.map_plain_linesOn, hplain, ← hlines settings reason,
      Compilation.map_plain_linesOn]

/-- **A text that is accepted is accepted without some casts.** -/
theorem parseChars_eraseCasts {options : ParseOptions} {store after : Store} {source : List Char}
    {unit : List DefId} (h : parseChars options store source = ⟨.ok unit, after⟩)
    (erased : Token → Bool) :
    ∃ after', parseChars options store (eraseCasts erased source) = ⟨.ok unit, after'⟩ ∧
      Compilation.Uncasts ⟨after, unit⟩ ⟨after', unit⟩ := by
  obtain ⟨ds, w, hderives, hbuild, rfl, rfl⟩ := parseChars_eq_ok.mp h
  obtain ⟨v, chunks, chunks', hbuildErased, hsheds, hchunks, hchunks', hsame⟩ :=
    build_erase_definitions erased hderives.faithful (.refl _) hbuild
  obtain ⟨last, htokenize, hlast⟩ := hderives
  obtain ⟨tokens, last', htokenize', hlast', hwords⟩ :=
    Lexer.tokenize_eraseCasts erased htokenize hlast
  rw [eraseTokens_definitions] at hwords
  -- the text has the words of the definitions without casts, at other places
  obtain ⟨ds', rfl, hretoken⟩ := definitions_retoken _ hwords
  obtain ⟨w', hbuild', hplain⟩ := (hretoken options).eq_ok hbuildErased
  have hsymbols : w'.symbols = w.symbols :=
    (congrArg Workspace.symbols hplain).trans hsheds.symbols
  refine ⟨w'.store, parseChars_eq_ok.mpr ⟨ds', w', ⟨last', htokenize', hlast'⟩, hbuild', ?_, rfl⟩,
    hsheds.uncasts (congrArg Workspace.store hplain) fun settings reason => ?_⟩
  · rw [hsymbols]
  · have htree' := hchunks'.unitTree
    rw [hsheds.symbols] at htree'
    rw [UnitTree.linesOn (c := ⟨v.store, _⟩) htree', UnitTree.linesOn (c := ⟨w.store, _⟩)
      hchunks.unitTree, unitLines_eq hsame hsheds]

/-- **Casts can be left out.** Put blanks in place of any casts of a source that is compiled, each from
its keyword to the end of its last type. The source is still compiled, to the same definitions, with
the same blocks but for the casts, and under the same numbers. The code is the same, but for the
numbers of tokens in remarks. -/
theorem compile_eraseCasts {settings : Settings} {source : List UInt8} {device : Device}
    {times : StageTimes} {c : Compilation}
    (h : (compile settings source device times).outcome = .ok c) (erased : Token → Bool)
    (reason : String) (times' : StageTimes) :
    ∃ text c', Utf8.decode source = (text, []) ∧ c.Uncasts c' ∧
      let compiled := compile settings source device times
      let compiled' := compile settings (Utf8.encode (eraseCasts erased text)) ⟨none, reason⟩ times'
      compiled'.outcome = .ok c' ∧ compiled.bytes = assemblyBytes (c.linesOn settings {}) ∧
        compiled'.bytes = assemblyBytes (c'.linesOn settings ⟨none, reason⟩) := by
  obtain ⟨text, chunks, hdecode, hparse, htree, hbytes⟩ := compile_eq_ok h
  obtain ⟨after, hparse', huncasts⟩ := parseChars_eraseCasts hparse erased
  have hsource' : Compilation.ofBytes settings (Utf8.encode (eraseCasts erased text)) =
      .ok ⟨after, c.unit⟩ := by
    change parseLexer _ _ _ = _ at hparse'
    simp only [Compilation.ofBytes, Lexer.ofBytes, Utf8.decode_encode, hparse']
  obtain ⟨houtcome', hbytes', -⟩ := compile_of_ofBytes hsource' reason times'
  refine ⟨text, ⟨after, c.unit⟩, hdecode, huncasts, houtcome', ?_, hbytes'⟩
  rw [hbytes, ← htree.bytes_eq settings ""]
  rfl

/-- Casts behind each other, at the end of a condition and of a body, around a comment and alone in a
body. The second of them stays. -/
theorem compile_eraseCasts_chosen :
    let source := ("func f \x7b \x7d func main \x7b 1 as i32 as u8 i8 if (true as u8) \x7b f call as\n" ++
      "// twice\nu8 \x7d else \x7b \x7d loop (0)\x7bas i8\x7d \x7d").toList
    let shorter := ("func f \x7b \x7d func main \x7b 1   as u8 i8 if (true  ) \x7b f call   \x7d " ++
      "else \x7b \x7d loop (0)\x7b \x7d \x7d").toList
    eraseCasts (·.index ≠ 10) source = shorter ∧
      ∃ c c', (compile {} (Utf8.encode source) {}).outcome = .ok c ∧ c.Uncasts c' ∧
        (compile {} (Utf8.encode shorter) {}).outcome = .ok c' ∧
        (compile {} (Utf8.encode source) {}).bytes = assemblyBytes (c.linesOn {} {}) ∧
        (compile {} (Utf8.encode shorter) {}).bytes = assemblyBytes (c'.linesOn {} {}) := by
  intro source shorter
  have hshorter : eraseCasts (·.index ≠ 10) source = shorter := by decide +kernel
  have hsource : (compile {} (Utf8.encode source) {}).outcome.isOk = true := by decide +kernel
  cases hc : (compile {} (Utf8.encode source) {}).outcome with
  | error e =>
    rw [hc] at hsource
    cases hsource
  | ok c =>
    obtain ⟨text, c', hdecode, huncasts, houtcome, hbytes, hbytes'⟩ :=
      compile_eraseCasts hc (·.index ≠ 10) "" {}
    rw [Utf8.decode_encode] at hdecode
    obtain rfl : source = text := congrArg Prod.fst hdecode
    rw [hshorter] at houtcome hbytes'
    exact ⟨hshorter, c, c', rfl, huncasts, houtcome, hbytes, hbytes'⟩

end StackCompiler
