import StackCompiler.Pipeline.Compilation
import StackCompiler.Proofs.Grammar.Reading
import StackCompiler.Proofs.Lowering.Unit

/-!
# The outcome of compiling

On a device that takes any number of bytes, a source is compiled completely, or it is refused for a
reason that lies in the source.

* `Compilation.IsWhole`: all lines of a unit and of its trees are written.
* `ofBytes_not_internal`: a source is never refused by a mistake of the compiler.
* **`compile_outcome`**: what compiling leads to.
-/

namespace StackCompiler

open Emission

/-! ## Sources that are refused -/

theorem LexFault.not_internal {cause : LexFault} (h : cause ≠ .lookaheadOverflow) :
    cause.kind.isInternal = false := by
  cases cause <;> first | rfl | exact absurd rfl h

/-- Parsing a text never finds a token put back twice: not even a parser would that puts back every
token once. -/
theorem parseLexer_cause {options : ParseOptions} {store : Store} {text : List Char}
    {e : ParseError}
    (h : (parseLexer options store (Lexer.ofChars text)).outcome = .error e) (cause : LexFault)
    (hcause : e.cause = .lexical cause) : cause ≠ .lookaheadOverflow := by
  unfold parseLexer at h
  dsimp only at h
  split at h
  · cases h
  · next e' w' hparse =>
    cases h
    rw [← parseOn_eq_parseTokens options fun _ _ => 1] at hparse
    intro hoverflow
    exact parseOn_not_overflow options _ rfl hparse (hoverflow ▸ hcause)

/-- **A source is refused because its bytes are no text, or because the text is not accepted**, and
never because a token was put back twice. -/
theorem ofBytes_not_internal {settings : Settings} {source : List UInt8} {e : CompileError}
    (h : Compilation.ofBytes settings source = .error e) :
    e.isInternal = false ∧
      ((∃ lexical, e = .lex lexical) ∨
        ∃ syntactic, e = .parse syntactic ∧ syntactic.cause ≠ .lexical .lookaheadOverflow) := by
  unfold Compilation.ofBytes at h
  split at h
  · next lexical hlexer =>
    cases h
    refine ⟨?_, .inl ⟨lexical, rfl⟩⟩
    unfold Lexer.ofBytes at hlexer
    split at hlexer
    · cases hlexer
    · cases hlexer
      rfl
  · next lexer hlexer =>
    obtain ⟨text, rfl⟩ : ∃ text, lexer = Lexer.ofChars text := by
      unfold Lexer.ofBytes at hlexer
      split at hlexer
      · cases hlexer
        exact ⟨_, rfl⟩
      · cases hlexer
    dsimp only at h
    split at h
    · next syntactic hparse =>
      cases h
      have hcause := parseLexer_cause hparse
      refine ⟨?_, .inr ⟨syntactic, rfl, fun hoverflow => hcause _ hoverflow rfl⟩⟩
      simp only [CompileError.isInternal]
      split
      · next cause hlexical => exact LexFault.not_internal (hcause cause hlexical)
      · rfl
    · cases h

/-! ## Units that are written -/

namespace Compilation

variable (settings : Settings) (c : Compilation) (device : Device)

/-- What lowering a definition gives. -/
def lowered (id : DefId) : Emitted Unit :=
  lowerDef settings.emitOptions c.store (emitLevels c.store device) id device

/-- **All of a unit is written**: every definition is lowered without an error, and its lines stand
in the order of the unit between those that come before and after all definitions. They are the lines
of the trees that have been added to the store `before`. Since these are given by recursion over the
trees, nothing inside a definition is left out either. -/
structure IsWhole (before : Store) (bytes : List UInt8) : Prop where
  outcome_eq : ∀ id ∈ c.unit, (c.lowered settings device id).outcome = .ok ()
  bytes_eq : bytes = Utf8.encode (assemblyText (preamble settings.entry ++
    (c.unit.flatMap (fun id => (c.lowered settings device id).lines) ++ postamble))).toList
  tree : ∃ chunks, UnitTree before c.store c.unit chunks ∧
    bytes = Utf8.encode (assemblyText (unitLines settings.emitOptions c.store c.unit chunks)).toList

end Compilation

/-- **A unit is written completely.** -/
theorem UnitTree.isWhole {before : Store} {c : Compilation} {chunks : List Chunk}
    (h : UnitTree before c.store c.unit chunks) (settings : Settings) (reason : String) :
    (c.emit settings ⟨none, reason⟩).outcome = .ok () ∧
      c.IsWhole settings ⟨none, reason⟩ before (c.emit settings ⟨none, reason⟩).bytes := by
  have hlevels : c.store.blocks.size ≤ emitLevels c.store ⟨none, reason⟩ := by
    simp [emitLevels]
  have hunit := h.gives settings.emitOptions hlevels reason
  have hdefs := fun p hp => h.gives_at settings.emitOptions hlevels (p := p) hp reason
  have hbytes : (c.emit settings ⟨none, reason⟩).bytes = Utf8.encode
      (assemblyText (unitLines settings.emitOptions c.store c.unit chunks)).toList := by
    rw [Compilation.emit, emitUnit, hunit]
    rfl
  refine ⟨congrArg Emitted.outcome hunit, ?_, ?_, chunks, h, hbytes⟩
  · intro id hid
    rw [← List.map_fst_zip (Nat.le_of_eq h.length), List.mem_map] at hid
    obtain ⟨p, hp, rfl⟩ := hid
    exact congrArg Emitted.outcome (hdefs p hp)
  · have hlines : definitionLines settings.emitOptions c.store c.unit chunks =
        c.unit.flatMap fun id => (c.lowered settings ⟨none, reason⟩ id).lines :=
      flatMap_zip_fst h.length fun p hp => congrArg Emitted.lines (hdefs p hp)
    rw [hbytes, ← hlines]
    rfl

/-- A source that is accepted is decoded to its end, and the text is accepted. -/
theorem ofBytes_decodes {settings : Settings} {source : List UInt8} {c : Compilation}
    (h : Compilation.ofBytes settings source = .ok c) :
    ∃ text, Utf8.decode source = (text, []) ∧
      parseChars settings.parseOptions (Store.empty Store.defaultMaxNodes) text =
        ⟨.ok c.unit, c.store⟩ := by
  unfold Compilation.ofBytes Lexer.ofBytes at h
  split at h
  · cases h
  · next lexer hlexer =>
    split at hlexer
    · next text hdecode =>
      cases hlexer
      refine ⟨text, hdecode, ?_⟩
      dsimp only at h
      split at h
      · cases h
      · next unit hunit =>
        cases h
        rw [← hunit]
        rfl
    · cases hlexer

theorem ofBytes_eq_ok {settings : Settings} {source : List UInt8} {c : Compilation}
    (h : Compilation.ofBytes settings source = .ok c) :
    ∃ text, parseChars settings.parseOptions (Store.empty Store.defaultMaxNodes) text =
      ⟨.ok c.unit, c.store⟩ := by
  obtain ⟨text, -, hparse⟩ := ofBytes_decodes h
  exact ⟨text, hparse⟩

/-- **On a device that takes any number of bytes, compiling writes the whole unit of a source that is
accepted.** Any other source is refused because its bytes are no text or because the text is not
accepted. No unit turns out to have no code, and no token is put back twice. -/
theorem compile_outcome (settings : Settings) (source : List UInt8) (reason : String)
    (times : StageTimes) :
    let compiled := compile settings source ⟨none, reason⟩ times
    (∃ c, Compilation.ofBytes settings source = .ok c ∧ compiled.outcome = .ok c ∧
      c.IsWhole settings ⟨none, reason⟩ (Store.empty Store.defaultMaxNodes) compiled.bytes) ∨
    ∃ e, Compilation.ofBytes settings source = .error e ∧ compiled.outcome = .error e ∧
      e.isInternal = false ∧
      ((∃ lexical, e = .lex lexical) ∨
        ∃ syntactic, e = .parse syntactic ∧ syntactic.cause ≠ .lexical .lookaheadOverflow) := by
  intro compiled
  have hcompiled : compiled = compile settings source ⟨none, reason⟩ times := rfl
  rw [compile] at hcompiled
  cases hsource : Compilation.ofBytes settings source with
  | error e =>
    rw [hsource] at hcompiled
    exact .inr ⟨e, rfl, congrArg Compiled.outcome hcompiled, ofBytes_not_internal hsource⟩
  | ok c =>
    obtain ⟨text, hparse⟩ := ofBytes_eq_ok hsource
    obtain ⟨chunks, htree⟩ := unitTree_of_parseChars hparse
    obtain ⟨houtcome, hwhole⟩ := htree.isWhole settings reason
    simp only [hsource, houtcome] at hcompiled
    rw [hcompiled]
    exact .inl ⟨c, rfl, rfl, hwhole⟩

end StackCompiler
