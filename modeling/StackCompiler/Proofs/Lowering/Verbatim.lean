import StackCompiler.Proofs.Lowering.Leaves
import StackCompiler.Proofs.Text.Utf8
import StackCompiler.Proofs.Tree.Provenance

/-!
# Lines of assembly in a source

A line of assembly is a string literal, which may denote any bytes. What is written is a text: bytes
that are the UTF-8 bytes of characters come out as they are, and no others do.

* `assemblyCode`: the code of a line of assembly.
* **`CopiesAssembly`**: the lines of assembly of a text in its code.
* **`compile_copiesAssembly`**: every source that is compiled.
* `assembly_replaced`: a line that does not come out as it is written.
-/

namespace StackCompiler

/-- The code of a line of assembly, given the bytes that stand for it. -/
def assemblyCode (token : Token) (line : List UInt8) : List UInt8 :=
  Utf8.encode ("\t;; --- asm (id: " ++ toString token.index ++ ") --- \n\t").toList ++
    (line ++ Utf8.encode ['\n'])

/-- **Lines of assembly in the code**: every line that is written as a literal stands in the code of the
function around it, unless that is left out. It comes out with the bytes of the literal if and only if
these are the bytes of some characters. -/
structure CopiesAssembly (text : List Char) (c : Compilation) (code : DefId → List UInt8)
    (x : BlockId) (token : Token) : Prop where
  standsIn : token.StandsIn text
  contained : ∃ id ∈ c.unit, c.Contains id x
  copied : ∃ terminated bytes, token.SpellsBytes terminated bytes ∧
    let line := Utf8.encode (Utf8.decodeLossy bytes)
    (line = bytes ↔ ∃ cs, bytes = Utf8.encode cs) ∧
      ∀ id ∈ c.unit, c.Contains id x → code id ≠ [] → assemblyCode token line <:+: code id

theorem assemblyBytes_assembly {token : Token} {bytes : List UInt8}
    (hvalue : token.value = .bytes bytes) (store : Store) :
    assemblyBytes ((Leaf.assembly token).lines store) =
      assemblyCode token (Utf8.encode (Utf8.decodeLossy bytes)) := by
  have hbytes : literalBytes token = bytes := by
    rw [literalBytes, Token.bytes?, hvalue]
    rfl
  simp [Leaf.lines, hbytes, assemblyBytes, assemblyText, String.join, Line.text, Remark.atMargin,
    Remark.text, assemblyCode, Utf8.encode]

/-- **Lines of assembly are copied as far as they are texts**: in every source that is compiled, with
whatever settings and on whatever device. -/
theorem compile_copiesAssembly {settings : Settings} {source : List UInt8} {device : Device}
    {times : StageTimes} {c : Compilation}
    (h : (compile settings source device times).outcome = .ok c) :
    ∃ text, Utf8.decode source = (text, []) ∧
      (∀ x token, c.store.block? x = some (.assembly token) →
        CopiesAssembly text c (c.segment settings {}) x token) ∧
      (compile settings source device times).bytes = assemblyBytes (preamble settings.entry) ++
        (c.unit.flatMap (c.segment settings {}) ++ assemblyBytes postamble) := by
  obtain ⟨text, chunks, hdecode, hparse, htree, hbytes⟩ := compile_eq_ok h
  have hmade := madeFrom_of_parseChars hparse (.empty _)
  refine ⟨text, hdecode, fun x token hblock => ?_, hbytes⟩
  obtain ⟨hstands, hstring⟩ := hmade.block? hblock
  obtain ⟨terminated, hkind⟩ := TokenKind.eq_string_of_isStringLiteral hstring
  obtain ⟨bytes, hspells, hvalue⟩ := hstands.quoted hkind
  refine ⟨hstands, htree.exists_contains hblock, terminated, bytes, hspells,
    Utf8.encode_decodeLossy_eq_iff, fun id hid hcontains hne => ?_⟩
  rw [← assemblyBytes_assembly hvalue c.store]
  exact htree.leaf_isInfix hid hcontains rfl hblock settings "" hne

/-- A line of two bytes for one character. -/
theorem copiesAssembly_character :
    let source := Utf8.encode "func main \x7b asm \"; \\xc3\\xa9\" \x7d".toList
    ∃ c token text, (compile {} source {}).outcome = .ok c ∧
      c.store.block? ⟨1, 0⟩ = some (.assembly token) ∧ Utf8.decode source = (text, []) ∧
      CopiesAssembly text c (c.segment {} {}) ⟨1, 0⟩ token := by
  intro source
  have hsource : (compile {} source {}).outcome.toOption.bind (fun c => c.store.block? ⟨1, 0⟩) =
      some (.assembly ⟨.string false, ⟨1, 17⟩, 4, .bytes [0x3B, 0x20, 0xC3, 0xA9],
        "\"; \\xc3\\xa9\""⟩) := by decide +kernel
  cases hc : (compile {} source {}).outcome with
  | error e =>
    rw [hc] at hsource
    cases hsource
  | ok c =>
    rw [hc] at hsource
    obtain ⟨text, hdecode, hcopies, -⟩ := compile_copiesAssembly hc
    exact ⟨c, _, text, rfl, hsource, hdecode, hcopies _ _ hsource⟩

/-- **A line that does not come out as it is written**: its only byte is no text, and stands nowhere in
what is written. -/
theorem assembly_replaced :
    let source := Utf8.encode "func main \x7b asm \"\\xff\" \x7d".toList
    ∃ c token, (compile {} source {}).outcome = .ok c ∧
      c.store.block? ⟨1, 0⟩ = some (.assembly token) ∧ token.SpellsBytes false [0xFF] ∧
      ¬ assemblyCode token [0xFF] <:+: (compile {} source {}).bytes := by
  intro source
  have hsource : (compile {} source {}).outcome.toOption.bind (fun c => c.store.block? ⟨1, 0⟩) =
      some (.assembly ⟨.string false, ⟨1, 17⟩, 4, .bytes [0xFF], "\"\\xff\""⟩) := by decide +kernel
  have hitem : ItemText [0xFF] ['\\', 'x', 'f', 'f'] :=
    .escape (.byte (List.all_eq_true.mp rfl) rfl (by decide))
  cases hc : (compile {} source {}).outcome with
  | error e =>
    rw [hc] at hsource
    cases hsource
  | ok c =>
    rw [hc] at hsource
    refine ⟨c, _, rfl, hsource, ⟨⟨_, .cons hitem .nil, by decide⟩, rfl⟩, fun hcopied => ?_⟩
    have hmem : (0xFF : UInt8) ∈ (compile {} source {}).bytes :=
      hcopied.subset (by simp [assemblyCode])
    -- everything that is written is the text of some lines
    have htext {lines : List Line} : (0xFF : UInt8) ∉ assemblyBytes lines := fun h =>
      absurd (Utf8.lt_of_mem_encode h) (by decide)
    obtain ⟨-, -, -, -, -, hbytes⟩ := compile_eq_ok hc
    rw [hbytes, List.mem_append, List.mem_append, List.mem_flatMap] at hmem
    rcases hmem with hmem | ⟨id, -, hmem⟩ | hmem
    · exact htext hmem
    · exact htext hmem
    · exact htext hmem

end StackCompiler
