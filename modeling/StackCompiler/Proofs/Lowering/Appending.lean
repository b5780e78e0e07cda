import StackCompiler.Proofs.Lowering.Strip
import StackCompiler.Proofs.Token.Joining
import StackCompiler.Proofs.Tree.ReadBack

/-!
# Definitions behind others

A text can be followed by a newline and more definitions. The definitions of the first text keep
their places, their nodes and their code. Only what the new ones refer to may become used.

* `Store.Retains`: definitions that stay, but may become used.
* **`Store.retains_invariant`**: building never changes the definitions that are there already.
* `Forest.lines_eq`, `Chunk.lines_eq`: code does not depend on what is used.
* `Compilation.Continues`: a compilation with more definitions behind those of another one.
* **`build_joined`**: the definitions of the second text are built behind those of the first.
* **`parseChars_joined`**: two texts joined by a newline.
-/

namespace StackCompiler

/-! ## Definitions that stay -/

/-- **The definitions of a store stay**, but those that are not used may become so. -/
def Store.Retains (store later : Store) : Prop :=
  ∀ id d, store.def? id = some d →
    later.def? id = some d ∨ (d.used = false ∧ later.def? id = some d.marked)

namespace Store.Retains

variable {store later : Store}

theorem refl (store : Store) : store.Retains store := fun _ _ hd => .inl hd

theorem of_def? {later' : Store} (h : store.Retains later)
    (hdef : ∀ id d, later.def? id = some d → later'.def? id = some d) : store.Retains later' := by
  intro id d hd
  rcases h id d hd with hlater | ⟨hused, hlater⟩
  · exact .inl (hdef id d hlater)
  · exact .inr ⟨hused, hdef id _ hlater⟩

/-- One more definition becomes used. -/
theorem markUsed (h : store.Retains later) (target : DefId) :
    store.Retains (later.modifyDef target ({ · with used := true })) := by
  intro id d hd
  rw [Store.def?_modifyDef]
  by_cases htarget : target = id
  · rw [if_pos htarget]
    cases hused : d.used with
    | true =>
      have hmarked : d.marked = d := by rw [Definition.marked, ← hused]
      rcases h id d hd with hlater | ⟨hunused, -⟩
      · rw [hlater]
        exact .inl (congrArg some hmarked)
      · rw [hused] at hunused
        cases hunused
    | false =>
      refine .inr ⟨rfl, ?_⟩
      rcases h id d hd with hlater | ⟨-, hlater⟩
      · rw [hlater]
        rfl
      · rw [hlater]
        rfl
  · rw [if_neg htarget]
    exact h id d hd

theorem marked (h : store.Retains later) {id : DefId} {d : Definition}
    (hd : store.def? id = some d) : ∃ d', later.def? id = some d' ∧ d'.marked = d.marked := by
  rcases h id d hd with hlater | ⟨-, hlater⟩
  · exact ⟨d, hlater, rfl⟩
  · exact ⟨d.marked, hlater, rfl⟩

end Store.Retains

/-- **Building changes no definition that is there already**, but for its use. -/
theorem Store.retains_invariant (options : ParseOptions) (store : Store) :
    BuildInvariant options fun w => store.Retains w.store where
  number hw := hw
  block _ hw := hw
  reference _ hw := hw.markUsed _
  change id f _ hw := hw.of_def? fun id' d hd => by rw [Store.def?_modifyBlock, hd]
  definition _ hw := hw.of_def? fun id d hd => by
    rw [Store.def?_withDef_of_lt _ _ (Store.index_lt_of_def? hd), hd]

/-! ## Code that stays -/

section Code

variable {store later : Store}

theorem Definition.label_eq {d d' : Definition} (h : d'.marked = d.marked) :
    d'.label = d.label := by
  change d'.marked.label = d.marked.label
  rw [h]

theorem Leaf.lines_eq (h : store.Retains later) {l : Leaf} (hl : l.Lowers store) :
    l.lines later = l.lines store := by
  cases l with
  | expression token => rfl
  | reference token target =>
    obtain ⟨d, hd⟩ := hl
    obtain ⟨d', hd', hmarked⟩ := h.marked hd
    simp only [lines, hd, hd', Option.elim_some, Definition.label_eq hmarked]
  | call location callee token target =>
    obtain ⟨d, hd, -⟩ := hl
    obtain ⟨d', hd', hmarked⟩ := h.marked hd
    simp only [lines, hd, hd', Option.elim_some, callLines, Definition.label_eq hmarked]
  | cast location types => rfl
  | assembly token => rfl

/-- **The code of a forest stays**, if its names are known. -/
theorem Forest.lines_eq (h : store.Retains later) {F : Forest}
    (hleaves : ∀ l ∈ F.contents.leaves, l.Lowers store) : F.lines later = F.lines store := by
  induction F with
  | nil => rfl
  | leaf id l rest ih =>
    simp only [contents, Contents.leaves_append, List.forall_mem_append] at hleaves
    rw [lines, lines, Leaf.lines_eq h (hleaves.1 l (.head _)), ih hleaves.2]
  | scope head inside rest ihi ihr =>
    simp only [contents, Contents.leaves_append, List.forall_mem_append] at hleaves
    rw [lines, lines, ihi hleaves.1.1, ihr hleaves.2]
  | branch j c condition b body rest ihc ihb ihr =>
    simp only [contents, Contents.leaves_append, List.forall_mem_append] at hleaves
    obtain ⟨⟨⟨⟨-, hc, -⟩, hb, -⟩, -⟩, hr⟩ := hleaves
    rw [lines, lines, ihc hc, ihb hb, ihr hr]
  | fork j c condition b body a o otherwise rest ihc ihb iho ihr =>
    simp only [contents, Contents.leaves_append, List.forall_mem_append] at hleaves
    obtain ⟨⟨⟨⟨⟨-, hc, -⟩, hb, -⟩, -⟩, ⟨-, ho, -⟩, -⟩, hr⟩ := hleaves
    rw [lines, lines, ihc hc, ihb hb, iho ho, ihr hr]
  | loop j c condition b body rest ihc ihb ihr =>
    simp only [contents, Contents.leaves_append, List.forall_mem_append] at hleaves
    obtain ⟨⟨⟨⟨-, hc, -⟩, hb, -⟩, -⟩, hr⟩ := hleaves
    rw [lines, lines, ihc hc, ihb hb, ihr hr]

/-- **The code of a definition stays**, unless it may be left out. -/
theorem Chunk.lines_eq (h : store.Retains later) {chunk : Chunk}
    (hleaves : ∀ l ∈ chunk.contents.leaves, l.Lowers store) {d d' : Definition}
    (hmarked : d'.marked = d.marked) {options : EmitOptions} (hstrip : options.strip = false) :
    chunk.lines options later d' = chunk.lines options store d := by
  have hlabel := Definition.label_eq hmarked
  have hsection : d'.sectionName = d.sectionName := by
    change d'.marked.sectionName = d.marked.sectionName
    rw [hmarked]
  have hbody : d'.body = d.body := (Definition.of_marked hmarked).2.2
  have hown : chunk.ownLines later d' = chunk.ownLines store d := by
    unfold Chunk.ownLines
    rw [hbody, hlabel]
    cases d.body with
    | function f =>
      cases htree : chunk.body with
      | none => rfl
      | some tree =>
        rw [Chunk.contents, htree] at hleaves
        have hinside := Forest.lines_eq h (F := tree.2) fun l hl => hleaves l (by simp [hl])
        simp only [prologue, hlabel, hinside]
    | memory capacity => rfl
    | string literal => rfl
  simp only [Chunk.lines, hstrip, Bool.false_and, Bool.false_eq_true, if_false, hown, hsection]

end Code

/-! ## More definitions -/

/-- **A compilation with more definitions behind those of another one**, which come from a second
text. -/
structure Compilation.Continues (second : List Char) (c later : Compilation)
    (more : List DefId) : Prop where
  /-- The earlier definitions come first. -/
  unit_eq : later.unit = c.unit ++ more
  /-- Every node stays under its handle; definitions may become used. -/
  block : ∀ id block, c.store.block? id = some block → later.store.block? id = some block
  definition : c.store.Retains later.store
  /-- The later definitions keep the tokens of the second text, which have moved. -/
  keeps : ∃ tokens last count lines ds chained,
    (Lexer.ofChars second).tokenize.1 = .ok (tokens ++ [last]) ∧ last.kind = .eof ∧
    ds.flatMap DefinitionPhrase.tokens = tokens.map (Token.moved count lines) ∧
    List.Forall₂ (KeepsTokens later.store (readBack later.store chained)) more ds
  /-- If all definitions are written, those that are new are written before the last block of lines,
  and all else stays. -/
  bytes : ∀ settings reason, settings.strip = false →
    let front := assemblyBytes (preamble settings.entry) ++
      c.unit.flatMap (c.segment settings ⟨none, reason⟩)
    (c.emit settings ⟨none, reason⟩).bytes = front ++ assemblyBytes postamble ∧
    (later.emit settings ⟨none, reason⟩).bytes =
      front ++ more.flatMap (later.segment settings ⟨none, reason⟩) ++ assemblyBytes postamble

theorem AddsChunks.append {w w₁ w' : Workspace} {chunks more : List Chunk}
    (h : AddsChunks w chunks w₁) (h' : AddsChunks w₁ more w') :
    AddsChunks w (chunks ++ more) w' := by
  induction h with
  | nil => exact h'
  | cons hchunk _ ih => exact .cons hchunk (ih h')

/-- Blocks that are there stay when others are added. -/
theorem Grows.block?_eq {w w' : Workspace} {contents : Contents} (h : Grows w w' contents)
    {id : BlockId} {block : Block} (hblock : w.store.block? id = some block) :
    w'.store.block? id = some block := by
  obtain ⟨hgeneration, hget⟩ := Store.block?_eq_some.mp hblock
  refine Store.block?_eq_some.mpr ⟨hgeneration.trans h.generation.symm, ?_⟩
  rw [← Array.getElem?_toList] at hget ⊢
  rw [h.blocks, List.getElem?_append_left (List.getElem?_eq_some_iff.mp hget).1, hget]

/-- The workspace before and after the definitions of the second text. -/
structure BuildsJoined (options : ParseOptions) (first second : List Char) (w w' : Workspace)
    (more : List DefinitionPhrase) : Prop where
  build : more.forM (DefinitionPhrase.build options) w = .ok () w'
  tokens : ∃ tokens last count lines,
    (Lexer.ofChars second).tokenize.1 = .ok (tokens ++ [last]) ∧ last.kind = .eof ∧
    more.flatMap DefinitionPhrase.tokens = tokens.map (Token.moved count lines)
  within : more.flatMap DefinitionPhrase.tokens <:+:
    (Lexer.ofChars (first ++ '\n' :: second)).run.tokens

/-- **The definitions of the second text are built behind those of the first.** -/
theorem build_joined {options : ParseOptions} {store after : Store} {first second : List Char}
    {ds : List DefinitionPhrase} {unit : List DefId} {w : Workspace} (hfirst : Derives first ds)
    (hbuild : ds.forM (DefinitionPhrase.build options) ⟨store, [], 0⟩ = .ok () w)
    (h : parseChars options store (first ++ '\n' :: second) = ⟨.ok unit, after⟩) :
    ∃ more w', BuildsJoined options first second w w' more ∧ unit = w'.symbols.map Prod.snd ∧
      after = w'.store := by
  obtain ⟨last₁, htokenize, hlast₁⟩ := hfirst
  obtain ⟨-, htokens₁⟩ := tokenize_eq_ok.mp htokenize
  have hjoined := Lexer.run_joined htokens₁ hlast₁ (Lexer.isStop_of_before htokens₁) second
  rw [parseChars, parseLexer_eq_ok] at h
  obtain ⟨w', h, hafter⟩ := h
  obtain ⟨herror, ⟨state, hrun⟩, hunit⟩ := parseTokens_eq_ok.mp h
  rw [hjoined] at herror hrun
  have hsecond : (Lexer.ofChars second).run.error = none := Option.map_eq_none_iff.mp herror
  obtain ⟨tokens, last, htokens, hlast, hinits⟩ := (Lexer.run_ofChars_whole second).ends hsecond
  dsimp only [Lexer.Run.moved] at hrun hjoined
  rw [htokens, List.map_append, List.map_singleton] at hrun hjoined
  generalize (ds.flatMap DefinitionPhrase.tokens).length = count at hrun hjoined
  generalize 1 + first.count '\n' = lines at hrun hjoined
  -- the parser comes to the second text with what the first one has left
  rw [run_definitions] at hrun
  obtain ⟨_, w₁, hbuild', hrun⟩ := bind_eq_ok.mp hrun
  rw [hbuild] at hbuild'
  cases hbuild'
  have hstop : (last.moved count lines).kind.isStop = true := by
    change last.kind.isStop = true
    rw [hlast]
    rfl
  have hmoved : ∀ token ∈ tokens.map (Token.moved count lines), token.kind.isStop = false := by
    rw [List.forall_mem_map]
    exact hinits
  obtain ⟨more, hmore⟩ := isUnit_of_run hmoved hstop hrun
  rw [hmore, run_definitions] at hrun
  obtain ⟨_, w₂, hbuild₂, hrun⟩ := bind_eq_ok.mp hrun
  rw [run_stop hstop] at hrun
  cases hrun
  refine ⟨more, w', ⟨hbuild₂, ?_, ?_⟩, hunit, hafter⟩
  · exact ⟨tokens, last, count, lines, tokenize_eq_ok.mpr ⟨hsecond, htokens⟩, hlast, hmore.symm⟩
  · rw [hjoined, ← hmore]
    exact ⟨ds.flatMap DefinitionPhrase.tokens, [last.moved count lines], List.append_assoc ..⟩

section Bytes

variable {store : Store} {w w' : Workspace} {chunks more : List Chunk}

/-- **The code of the earlier definitions stays.** -/
theorem AddsChunks.segment_eq (h : AddsChunks ⟨store, [], 0⟩ chunks w) (h' : AddsChunks w more w')
    (hretains : w.store.Retains w'.store) {settings : Settings} (hstrip : settings.strip = false)
    (reason : String) {id : DefId} (hid : id ∈ w.symbols.map Prod.snd) :
    Compilation.segment settings ⟨w'.store, w'.symbols.map Prod.snd⟩ ⟨none, reason⟩ id =
      Compilation.segment settings ⟨w.store, w.symbols.map Prod.snd⟩ ⟨none, reason⟩ id := by
  have htree := h.unitTree
  have htree' := (h.append h').unitTree
  obtain ⟨chunk, hmem⟩ : ∃ chunk, (id, chunk) ∈ (w.symbols.map Prod.snd).zip chunks := by
    rw [← List.map_fst_zip (Nat.le_of_eq htree.length), List.mem_map] at hid
    obtain ⟨p, hp, rfl⟩ := hid
    exact ⟨p.2, hp⟩
  have hmem' : (id, chunk) ∈ (w'.symbols.map Prod.snd).zip (chunks ++ more) := by
    rw [h'.symbols, List.map_append, List.zip_append htree.length]
    exact List.mem_append_left _ hmem
  obtain ⟨i, hi⟩ := List.mem_iff_getElem?.mp hmem
  have hleaves := htree.lowers (List.getElem?_zip_eq_some.mp hi).2
  obtain ⟨d, -, hmarked, hsegment⟩ :=
    UnitTree.segment_at (c := ⟨w.store, w.symbols.map Prod.snd⟩) htree hmem
  obtain ⟨d', -, hmarked', hsegment'⟩ :=
    UnitTree.segment_at (c := ⟨w'.store, w'.symbols.map Prod.snd⟩) htree' hmem'
  rw [hsegment, hsegment', Chunk.lines_eq hretains hleaves (hmarked'.trans hmarked.symm) hstrip]

end Bytes

/-- **Texts joined by a newline.** The definitions of the first text come first, with the same nodes
and the same code, and only the definitions of the second text are new. -/
theorem parseChars_joined {options : ParseOptions} {store : Store} {first second : List Char}
    {unit unit' : List DefId} (h : (parseChars options store first).outcome = .ok unit)
    (h' : (parseChars options store (first ++ '\n' :: second)).outcome = .ok unit') :
    ∃ more, Compilation.Continues second ⟨(parseChars options store first).store, unit⟩
      ⟨(parseChars options store (first ++ '\n' :: second)).store, unit'⟩ more := by
  have hparsed : parseChars options store first =
      ⟨.ok unit, (parseChars options store first).store⟩ := by rw [← h]
  have hparsed' : parseChars options store (first ++ '\n' :: second) =
      ⟨.ok unit', (parseChars options store (first ++ '\n' :: second)).store⟩ := by rw [← h']
  generalize (parseChars options store first).store = after at hparsed ⊢
  generalize (parseChars options store (first ++ '\n' :: second)).store = after' at hparsed' ⊢
  obtain ⟨ds, w, hderives, hbuild, rfl, rfl⟩ := parseChars_eq_ok.mp hparsed
  obtain ⟨more, w', hjoined, rfl, rfl⟩ := build_joined hderives hbuild hparsed'
  obtain ⟨chunks, hchunks⟩ := addsChunks_of_build hderives.faithful hbuild
  have hfaithful := (Lexer.run_ofChars_whole (first ++ '\n' :: second)).faithful
  obtain ⟨chunks', hchunks'⟩ := addsChunks_of_build
    (fun t ht => hfaithful t (hjoined.within.mem ht)) hjoined.build
  have hretains : w.store.Retains w'.store := (Store.retains_invariant options w.store).definitions
    more w () w' hjoined.build (.refl w.store)
  obtain ⟨marks, ids, hids, htold⟩ := told_definitions
    (Lexer.run_spelled (first ++ '\n' :: second)) hfaithful hjoined.within hjoined.build
  refine ⟨ids, hids, fun _ _ => hchunks'.grows.block?_eq, hretains, ?_, ?_⟩
  · obtain ⟨tokens, last, count, lines, htokenize, hlast, htokens⟩ := hjoined.tokens
    obtain ⟨chained, hchained⟩ := exists_marked htold.nodup
    refine ⟨tokens, last, count, lines, more, chained, htokenize, hlast, htokens, ?_⟩
    exact htold.holds w'.store chained _ (.refl _) hchained (Nat.le_add_right ..)
  · intro settings reason hstrip
    have hsegments : (w.symbols.map Prod.snd).flatMap
        (Compilation.segment settings ⟨w'.store, w'.symbols.map Prod.snd⟩ ⟨none, reason⟩) =
        (w.symbols.map Prod.snd).flatMap
          (Compilation.segment settings ⟨w.store, w.symbols.map Prod.snd⟩ ⟨none, reason⟩) :=
      List.flatMap_congr fun id hid => hchunks.segment_eq hchunks' hretains hstrip reason hid
    have hbytes := UnitTree.bytes_eq (c := ⟨w.store, w.symbols.map Prod.snd⟩) hchunks.unitTree
      settings reason
    have hbytes' := UnitTree.bytes_eq (c := ⟨w'.store, w'.symbols.map Prod.snd⟩)
      (hchunks.append hchunks').unitTree settings reason
    constructor
    · rw [hbytes, List.append_assoc]
    · rw [hbytes', ← hsegments]
      dsimp only
      rw [hids, List.flatMap_append]
      simp only [List.append_assoc]

/-- A function that is not used becomes so by a call in the second text, which has a comment and no
token in its first line. -/
theorem parseChars_joined_call :
    let first := "mem m 8 func f { m drop } // f".toList
    let second := "; main\nfunc main { f call }".toList
    let parsed := parseChars {} (Store.empty 100) first
    let parsed' := parseChars {} (Store.empty 100) (first ++ '\n' :: second)
    parsed.outcome = .ok [⟨0, 0⟩, ⟨1, 0⟩] ∧ parsed'.outcome = .ok [⟨0, 0⟩, ⟨1, 0⟩, ⟨2, 0⟩] ∧
      ∃ more, Compilation.Continues second ⟨parsed.store, [⟨0, 0⟩, ⟨1, 0⟩]⟩
        ⟨parsed'.store, [⟨0, 0⟩, ⟨1, 0⟩, ⟨2, 0⟩]⟩ more :=
  ⟨by decide +kernel, by decide +kernel,
    parseChars_joined (by decide +kernel) (by decide +kernel)⟩

end StackCompiler
