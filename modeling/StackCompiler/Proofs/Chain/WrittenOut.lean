import StackCompiler.Proofs.Chain.Code
import StackCompiler.Proofs.Chain.Continuation
import StackCompiler.Proofs.Chain.Text
import StackCompiler.Proofs.Lowering.Strip

/-!
# Chains of branches written out

`elif` is short for `else` and a branch in braces. Writing it out changes neither whether a text is
accepted, nor any limit that it meets, nor what is built: only the places and numbers of tokens are
others. So the code stays, but for the numbers in remarks.

* `Compilation.Resembles`: units that are the same up to places and numbers of tokens.
* **`parseChars_writtenOut`**: texts in which a continuation is written out.
-/

namespace StackCompiler

/-! ## Units that resemble each other -/

/-- The lines that are written to a device. -/
def Compilation.linesOn (settings : Settings) (c : Compilation) (device : Device) : List Line :=
  (lowerUnit settings.emitOptions c.store (emitLevels c.store device) c.unit device).lines

/-- **Two units are the same**, up to places and numbers of tokens. -/
structure Compilation.Resembles (c c' : Compilation) : Prop where
  /-- The same handles stand for the definitions. -/
  unit_eq : c'.unit = c.unit
  /-- Every handle stands for the same node. -/
  store_eq : c'.store.plain = c.store.plain
  size_eq : c'.store.size = c.store.size
  /-- Both are written completely. -/
  emits : ∀ settings reason, ∀ d ∈ [c, c'], (d.emit settings ⟨none, reason⟩).outcome = .ok () ∧
    (d.emit settings ⟨none, reason⟩).bytes = assemblyBytes (d.linesOn settings ⟨none, reason⟩)
  /-- Their lines differ in the numbers of tokens in remarks only. -/
  lines_eq : ∀ settings reason, (c'.linesOn settings ⟨none, reason⟩).map Line.plain =
    (c.linesOn settings ⟨none, reason⟩).map Line.plain

/-- The lines of a unit, without numbers of tokens, are those of the plain unit. -/
theorem Compilation.map_plain_linesOn (c : Compilation) (settings : Settings) (reason : String) :
    (c.linesOn settings ⟨none, reason⟩).map Line.plain =
      Compilation.linesOn settings ⟨c.store.plain, c.unit⟩ ⟨none, reason⟩ := by
  have hlevels : emitLevels c.store.plain ⟨none, reason⟩ = emitLevels c.store ⟨none, reason⟩ := by
    simp [emitLevels, Store.plain]
  have hplain := (lowerUnit_plain c.store settings.emitOptions (emitLevels c.store ⟨none, reason⟩)
    c.unit reason).2
  rw [Compilation.linesOn, Compilation.linesOn, hlevels, hplain]
  rfl

/-- Parsed units with the same plain store. -/
theorem Compilation.resembles_of_plain {options : ParseOptions} {store : Store}
    {source source' : List Char} {unit : List DefId} {after after' : Store}
    (h : parseChars options store source = ⟨.ok unit, after⟩)
    (h' : parseChars options store source' = ⟨.ok unit, after'⟩)
    (hplain : after'.plain = after.plain) :
    Compilation.Resembles ⟨after, unit⟩ ⟨after', unit⟩ := by
  have hemits {source : List Char} {after : Store}
      (h : parseChars options store source = ⟨.ok unit, after⟩) (settings : Settings)
      (reason : String) :
      (Compilation.emit settings ⟨after, unit⟩ ⟨none, reason⟩).outcome = .ok () ∧
        (Compilation.emit settings ⟨after, unit⟩ ⟨none, reason⟩).bytes =
          assemblyBytes (Compilation.linesOn settings ⟨after, unit⟩ ⟨none, reason⟩) := by
    obtain ⟨chunks, htree⟩ := unitTree_of_parseChars h
    have hwhole := UnitTree.isWhole (c := ⟨after, unit⟩) htree settings reason
    exact ⟨hwhole.1, rfl⟩
  refine ⟨rfl, hplain, ?_, fun settings reason => ?_, fun settings reason => ?_⟩
  · rw [← Store.size_plain after', ← Store.size_plain after, hplain]
  · rw [List.forall_mem_cons, List.forall_mem_singleton]
    exact ⟨hemits h settings reason, hemits h' settings reason⟩
  · rw [Compilation.map_plain_linesOn, Compilation.map_plain_linesOn, hplain]

/-! ## Texts -/

theorem Alike.eq_ok {α : Type} {m m' : ParseM α} (h : Alike m m') {w w₁ : Workspace} {a : α}
    (hm : m w = .ok a w₁) : ∃ w₁', m' w = .ok a w₁' ∧ w₁'.plain = w₁.plain := by
  have hseen := h w w rfl
  rw [hm] at hseen
  cases hm' : m' w with
  | ok a' w₁' =>
    rw [hm'] at hseen
    injection hseen with hpair
    obtain ⟨rfl, hplain⟩ := Prod.mk.inj hpair
    exact ⟨w₁', rfl, hplain.symm⟩
  | error e w₁' =>
    rw [hm'] at hseen
    cases hseen

/-- **Every derivation of an accepted text can be built.** -/
theorem Derives.build_eq_ok {source : List Char} {ds : List DefinitionPhrase}
    (hderives : Derives source ds) {options : ParseOptions} {store after : Store}
    {unit : List DefId} (h : parseChars options store source = ⟨.ok unit, after⟩) :
    ∃ w, ds.forM (DefinitionPhrase.build options) ⟨store, [], 0⟩ = .ok () w ∧
      unit = w.symbols.map Prod.snd ∧ after = w.store := by
  obtain ⟨last, htokenize, hlast⟩ := hderives
  obtain ⟨-, htokens⟩ := tokenize_eq_ok.mp htokenize
  obtain ⟨w, hparse, rfl⟩ := parseLexer_eq_ok.mp h
  obtain ⟨-, ⟨state, hrun⟩, hunit⟩ := parseTokens_eq_ok.mp hparse
  rw [htokens, run_definitions] at hrun
  obtain ⟨_, w₁, hbuild, hrun⟩ := bind_eq_ok.mp hrun
  rw [run_stop (by rw [hlast]; rfl)] at hrun
  cases hrun
  exact ⟨w, hbuild, hunit, rfl⟩

/-- The words of a continuation that is written out. -/
theorem words_writeOut (condition body : Phrase .scope) (chain : Phrase .chain) :
    (Phrase.writeOut condition body chain).tokens.map Token.word = headWords ++
      ((condition.tokens ++ (body.tokens ++ chain.tokens)).map Token.word ++
        [fixedWord (.closing .brace)]) := by
  have hfixed (kind : TokenKind) : (fixedToken kind).1.word = fixedWord kind := rfl
  simp [Phrase.writeOut, Phrase.tokens, headWords, hfixed]

/-- **Chains of branches can be written out.** Wherever `elif` stands in a text that is accepted, it
can be replaced by `else { if`, if a closing brace is put behind the end of the chain. The text is
then accepted under the same limits, and gives the same unit, up to places and numbers of tokens. -/
theorem parseChars_writtenOut {options : ParseOptions} {store : Store} {source : List Char}
    {unit : List DefId} (h : (parseChars options store source).outcome = .ok unit)
    {u : UnitPosition} {keyword : Word (.keyword .elseIf)} {condition body : Phrase .scope}
    {chain : Phrase .chain}
    (hderives : Derives source (u.plug (.elseIf keyword condition body chain))) :
    ∃ front inner back,
      Continuation source keyword.1 (condition.tokens ++ (body.tokens ++ chain.tokens)) front inner
        back ∧
      source = front ++ ("elif".toList ++ (inner ++ back)) ∧
      (parseChars options store (writtenOut front inner back)).outcome = .ok unit ∧
      Compilation.Resembles ⟨(parseChars options store source).store, unit⟩
        ⟨(parseChars options store (writtenOut front inner back)).store, unit⟩ := by
  have hparsed : parseChars options store source =
      ⟨.ok unit, (parseChars options store source).store⟩ := by rw [← h]
  obtain ⟨w, hbuild, hunit, hstore⟩ := hderives.build_eq_ok hparsed
  rw [hunit, hstore] at hparsed ⊢
  obtain ⟨before, after, htokens⟩ := u.tokens_plug
  obtain ⟨last, htokenize, hlast⟩ := hderives
  rw [htokens] at htokenize
  obtain ⟨front, inner, back, hcut, tokens, last', htokenize', hlast', hwords⟩ :=
    Lexer.tokenize_writtenOut htokenize hlast keyword.2
  have hwords' : tokens.map Token.word = ((u.plug (.writeOut condition body chain)).flatMap
      DefinitionPhrase.tokens).map Token.word := by
    rw [htokens, List.map_append, List.map_append, words_writeOut, hwords, List.append_assoc,
      List.append_assoc]
    rfl
  obtain ⟨ds, rfl, hretoken⟩ := definitions_retoken _ hwords'
  have halike := (u.build_plug (Phrase.build_writeOut keyword condition body chain options)).trans
    (hretoken options)
  obtain ⟨w', hbuild', hplain⟩ := halike.eq_ok hbuild
  have hparsed' : parseChars options store (writtenOut front inner back) =
      ⟨.ok (w.symbols.map Prod.snd), w'.store⟩ := by
    have hsymbols : w'.symbols = w.symbols := congrArg (·.symbols) hplain
    rw [← hsymbols]
    exact parseChars_eq_ok.mpr ⟨ds, w', ⟨last', htokenize', hlast'⟩, hbuild', rfl, rfl⟩
  refine ⟨front, inner, back, hcut, hcut.source_eq keyword.2, ?_, ?_⟩
  · rw [hparsed']
  · rw [hparsed']
    exact Compilation.resembles_of_plain hparsed hparsed' (congrArg (·.store) hplain)

/-- A chain that ends with `else`. -/
theorem parseChars_writtenOut_chain :
    let source := "func f { if () {} elif () {} else {} }".toList
    let parsed := parseChars {} (Store.empty 100) source
    parsed.outcome = .ok [⟨0, 0⟩] ∧ ∃ u keyword condition body chain,
      Derives source (UnitPosition.plug u (.elseIf keyword condition body chain)) ∧
      ∃ front inner back,
        Continuation source keyword.1 (condition.tokens ++ (body.tokens ++ chain.tokens)) front
          inner back ∧
        source = front ++ ("elif".toList ++ (inner ++ back)) ∧
        (parseChars {} (Store.empty 100) (writtenOut front inner back)).outcome = .ok [⟨0, 0⟩] ∧
        Compilation.Resembles ⟨parsed.store, [⟨0, 0⟩]⟩
          ⟨(parseChars {} (Store.empty 100) (writtenOut front inner back)).store, [⟨0, 0⟩]⟩ := by
  intro source parsed
  have h : parsed.outcome = .ok [⟨0, 0⟩] := by decide +kernel
  let word (kind : TokenKind) (column index : Nat) : Word kind :=
    ⟨⟨kind, ⟨1, column⟩, index, .none, kind.spelling?.getD ""⟩, rfl⟩
  let scope (bracket : Bracket) (column index : Nat) : Phrase .scope :=
    .enclosed bracket (word _ column index) .nil (word _ (column + 1) (index + 1))
  let u : UnitPosition :=
    { before := []
      place := none
      function := ⟨word _ 1 0, ⟨⟨.identifier, ⟨1, 6⟩, 1, .text "f", "f"⟩, rfl⟩, none, ⟨none, none⟩,
        word _ 8 2, .nil, word _ 38 16⟩
      position := .consFirst (.branchChain (word _ 10 3) (scope .paren 13 4) (scope .brace 16 6)
        .here) .nil
      after := [] }
  have hderives : Derives source (u.plug (.elseIf (word _ 19 8) (scope .paren 24 9)
      (scope .brace 27 11) (.otherwise (word _ 30 13) (scope .brace 35 14)))) :=
    ⟨⟨.eof, ⟨1, 39⟩, 17, .none, ""⟩, by decide +kernel, rfl⟩
  exact ⟨h, u, _, _, _, _, hderives, parseChars_writtenOut h hderives⟩

end StackCompiler
