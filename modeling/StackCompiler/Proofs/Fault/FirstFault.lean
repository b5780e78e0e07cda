import StackCompiler.Proofs.Fault.Completion
import StackCompiler.Proofs.Grammar.Acceptance
import StackCompiler.Proofs.Token.Texts

/-!
# The first token that cannot be right

Parsing fails at the first token that cannot be right: what stands before it begins a text that
parses, and no text whose tokens begin with it and those before it does. Whether a text parses
depends on its words only, given room, since it then derives from the grammar.

* `run_of_accepted`: a run that succeeds does so wherever there is room, without locations too.
* `Before`: the text before a token.
* `FirstFault`: what it means that parsing fails at a token.
* **`parseChars_firstFault`**: every failure but a lexical one is of this kind.
-/

namespace StackCompiler

/-! ## Runs in a row -/

section Runs

variable {options : ParseOptions} {state next : ParseState} {w w' : Workspace}

theorem run_append (first rest : List Token) :
    run options state (first ++ rest) =
      run options state first >>= fun next => run options next rest :=
  List.foldlM_append

/-- **A run that fails does so at one of its tokens.** -/
theorem run_eq_error {tokens : List Token} {e : ParseError}
    (h : run options state tokens w = .error e w') :
    ∃ before token after next w₁, tokens = before ++ token :: after ∧
      run options state before w = .ok next w₁ ∧ step options next token w₁ = .error e w' := by
  induction tokens generalizing state w with
  | nil => cases h
  | cons token rest ih =>
    rw [run_cons] at h
    cases hr : step options state token w with
    | ok next w₁ =>
      rw [bind_of_eq_ok hr] at h
      obtain ⟨before, token', after, next', w₂, rfl, hbefore, hstep⟩ := ih h
      refine ⟨token :: before, token', after, next', w₂, rfl, ?_, hstep⟩
      rw [run_cons, bind_of_eq_ok hr, hbefore]
    | error e₁ w₁ =>
      rw [bind_of_eq_error hr] at h
      cases h
      exact ⟨[], token, rest, state, w, rfl, rfl, hr⟩

end Runs

/-- A text is accepted if the lexer reads it to its end and the run over its tokens succeeds. -/
theorem accepted_iff {options : ParseOptions} {store : Store} {source : List Char} :
    (∃ unit, (parseChars options store source).outcome = .ok unit) ↔
      (Lexer.ofChars source).run.error = none ∧ ∃ state w,
        run options .definition (Lexer.ofChars source).run.tokens ⟨store, [], 0⟩ = .ok state w := by
  constructor
  · rintro ⟨unit, hunit⟩
    have hparsed : parseChars options store source =
        ⟨.ok unit, (parseChars options store source).store⟩ := by rw [← hunit]
    obtain ⟨w', h, -⟩ := parseLexer_eq_ok.mp hparsed
    obtain ⟨herror, ⟨state, hrun⟩, -⟩ := parseTokens_eq_ok.mp h
    exact ⟨herror, state, w', hrun⟩
  · rintro ⟨herror, state, w, hrun⟩
    refine ⟨w.symbols.map Prod.snd, ?_⟩
    have hparsed : parseChars options store source = ⟨.ok _, w.store⟩ :=
      parseLexer_eq_ok.mpr ⟨w, parseTokens_eq_ok.mpr ⟨herror, ⟨state, hrun⟩, rfl⟩, rfl⟩
    rw [hparsed]

/-- A failure that is not lexical is one of the run over the tokens. -/
theorem run_of_outcome {options : ParseOptions} {store : Store} {source : List Char}
    {e : ParseError} (h : (parseChars options store source).outcome = .error e)
    (hlexical : e.isLexical = false) :
    ∃ w, run options .definition (Lexer.ofChars source).run.tokens ⟨store, [], 0⟩ = .error e w := by
  cases hr : run options .definition (Lexer.ofChars source).run.tokens ⟨store, [], 0⟩ with
  | error e₁ w =>
    have hparse : parseTokens options (Lexer.ofChars source).run.tokens
        (Lexer.ofChars source).run.error ⟨store, [], 0⟩ = .error e₁ w := bind_of_eq_error hr _
    simp only [parseChars, parseLexer, hparse] at h
    cases h
    exact ⟨w, rfl⟩
  | ok state w =>
    cases herror : (Lexer.ofChars source).run.error with
    | none =>
      obtain ⟨unit, hunit⟩ := accepted_iff.mpr ⟨herror, state, w, hr⟩
      rw [hunit] at h
      cases h
    | some stopped =>
      have hparse : parseTokens options (Lexer.ofChars source).run.tokens (some stopped)
          ⟨store, [], 0⟩ = .error ⟨.lexical stopped.cause, some stopped.location⟩ w :=
        bind_of_eq_ok hr _
      simp only [parseChars, parseLexer, herror, hparse] at h
      cases h
      cases hlexical

/-! ## Acceptance by words -/

/-- **A run that succeeds does so without locations**, under higher limits. -/
theorem run_bare_of_ok {options : ParseOptions} {store : Store} {tokens : List Token}
    {state : ParseState} {w : Workspace} (up : Nat)
    (h : run options .definition tokens ⟨store, [], 0⟩ = .ok state w) :
    run (options.raise up) .definition (tokens.map Token.bare) ⟨store.bare up, [], 0⟩ =
      .ok state.bare (w.bare up) := by
  rcases run_mirrors up options .definition tokens ⟨store, [], 0⟩ with hmirror | ⟨-, hlimit⟩
  · rw [h] at hmirror
    exact hmirror
  · rw [h] at hlimit
    exact hlimit.elim

/-- A run that fails for another reason than a limit does so without locations, too. -/
theorem run_bare_of_error {options : ParseOptions} {store : Store} {tokens : List Token}
    {e : ParseError} {w : Workspace} (up : Nat) (he : e.cause.isLimit = false)
    (h : run options .definition tokens ⟨store, [], 0⟩ = .error e w) :
    run (options.raise up) .definition (tokens.map Token.bare) ⟨store.bare up, [], 0⟩ =
      .error e.bare (w.bare up) := by
  rcases run_mirrors up options .definition tokens ⟨store, [], 0⟩ with hmirror | ⟨-, hlimit⟩
  · rw [h] at hmirror
    exact hmirror
  · rw [h] at hlimit
    exact absurd (hlimit.symm.trans he) (by simp)

/-- What succeeds without locations succeeds with them. -/
theorem run_of_bare {options : ParseOptions} {store : Store} {tokens : List Token}
    {state : ParseState} {w : Workspace}
    (h : run options .definition (tokens.map Token.bare) ⟨store.bare 0, [], 0⟩ = .ok state w) :
    ∃ state' w', run options .definition tokens ⟨store, [], 0⟩ = .ok state' w' := by
  cases hr : run options .definition tokens ⟨store, [], 0⟩ with
  | ok state' w' => exact ⟨state', w', rfl⟩
  | error e w' =>
    rcases run_mirrors 0 options .definition tokens ⟨store, [], 0⟩ with hmirror | ⟨hup, -⟩
    · rw [hr] at hmirror
      have herror : run options .definition (tokens.map Token.bare) ⟨store.bare 0, [], 0⟩ =
          .error e.bare (w'.bare 0) := hmirror
      rw [herror] at h
      cases h
    · exact absurd hup (Nat.lt_irrefl 0)

/-- **Definitions that are well named parse wherever there is room.** -/
theorem run_of_wellNamed {ds : List DefinitionPhrase} (hds : WellNamed [] ds) {last : Token}
    (hlast : last.kind.isStop = true) {options : ParseOptions} {store : Store}
    (hdepth : (ds.flatMap DefinitionPhrase.tokens).length ≤ options.maxDepth)
    (hnodes : store.size + (ds.flatMap DefinitionPhrase.tokens).length ≤ store.maxNodes) :
    ∃ w, run options .definition (ds.flatMap DefinitionPhrase.tokens ++ [last]) ⟨store, [], 0⟩ =
      .ok .definition w := by
  have hstart : Workspace.Knows ⟨store, [], 0⟩ [] := ⟨.nil, List.nodup_nil⟩
  obtain ⟨_, w, hbuild⟩ := (forM_build_meets hdepth _ hstart hnodes).1 hds
  exact ⟨w, by rw [run_definitions, bind_of_eq_ok hbuild, run_stop hlast]⟩

/-- **A run that succeeds does so wherever there is room**, and without locations too. -/
theorem run_of_accepted {options : ParseOptions} {store : Store} {tokens : List Token}
    (htokens : ∀ t ∈ tokens, t.kind.isStop = false) {last : Token}
    (hlast : last.kind.isStop = true) {state : ParseState} {w : Workspace}
    (h : run options .definition (tokens ++ [last]) ⟨store, [], 0⟩ = .ok state w)
    (options' : ParseOptions) (hdepth : tokens.length ≤ options'.maxDepth) (store' : Store)
    (hnodes : store'.size + tokens.length ≤ store'.maxNodes) :
    ∃ w', run options' .definition ((tokens ++ [last]).map Token.bare) ⟨store', [], 0⟩ =
      .ok .definition w' := by
  -- With raised limits the first run gives a derivation, and this builds in the second store.
  have hbare := run_bare_of_ok (store.size + tokens.length) h
  rw [List.map_append, List.map_singleton] at hbare ⊢
  have hstop : ∀ t ∈ tokens.map Token.bare, t.kind.isStop = false := by
    exact List.forall_mem_map.mpr htokens
  obtain ⟨ds, hds⟩ := isUnit_of_run hstop (show last.bare.kind.isStop = true from hlast) hbare
  have hlength : (ds.flatMap DefinitionPhrase.tokens).length = tokens.length := by
    rw [← hds, List.length_map]
  rw [hds, run_definitions, bind_eq_ok] at hbare
  obtain ⟨_, w₁, hbuild, -⟩ := hbare
  have hnamed : WellNamed [] ds := by
    have hstart : Workspace.Knows ⟨store.bare (store.size + tokens.length), [], 0⟩ [] :=
      ⟨.nil, List.nodup_nil⟩
    refine ((forM_build_meets ?_ _ hstart ?_).2 _ _ hbuild).1
    · rw [hlength, ParseOptions.raise]
      dsimp only
      omega
    · rw [hlength, Store.size_bare, Store.maxNodes_bare]
      omega
  rw [← hlength] at hdepth hnodes
  rw [hds]
  exact run_of_wellNamed hnamed (show last.bare.kind.isStop = true from hlast) hdepth hnodes

/-! ## The text before a token -/

/-- **The text before a token**: the tokens before it with the gaps in front of them, and the gap in
front of the token itself. -/
def Before (source : List Char) (before : List Token) (token : Token) (text : List Char) : Prop :=
  ∃ pieces here gap next, (Lexer.ofChars source).Scans pieces here ∧
    pieces.map Lexer.Piece.token = before ∧ here.Reads gap token next ∧
    text = pieces.flatMap Lexer.Piece.chars ++ gap

/-- **The text before a token goes on with any words on lines of their own.** -/
theorem run_before {source : List Char} {before : List Token} {token : Token} {text : List Char}
    (h : Before source before token text) (hbefore : ∀ t ∈ before, t.kind.isStop = false)
    {words : List Lexeme} (hwords : ∀ word ∈ words, Legible word) :
    (Lexer.ofChars (text ++ '\n' :: lines words)).run.error = none ∧
      ∃ tokens last, (Lexer.ofChars (text ++ '\n' :: lines words)).run.tokens =
        before ++ (tokens ++ [last]) ∧ tokens.map Token.word = words ∧ last.kind = .eof := by
  obtain ⟨pieces, here, gap, next, hscans, rfl, hread, rfl⟩ := h
  have hkinds : ∀ p ∈ pieces, p.token.kind ≠ .eof := fun p hp =>
    TokenKind.ne_eof_of_isStop (hbefore _ (List.mem_map_of_mem hp))
  -- a newline ends the last token and, if the gap ends with one, the comment before it
  have hend : AtEnd here.input → AtEnd ((gap ++ ['\n']) ++ lines words) := by
    rw [hread.input]
    cases gap with
    | nil => exact fun _ => by simp [AtEnd, isTerminator, isBlank]
    | cons c gap => exact id
  have hexchange := hscans.exchange hkinds hend
  have hsource : (Lexer.ofChars source).withInput
      (pieces.flatMap Lexer.Piece.chars ++ ((gap ++ ['\n']) ++ lines words)) =
      Lexer.ofChars ((pieces.flatMap Lexer.Piece.chars ++ gap) ++ '\n' :: lines words) := by
    simp [Lexer.withInput, Lexer.ofChars]
  rw [hsource] at hexchange
  have hpending := hexchange.pending
  obtain ⟨herror, tokens, last, htokens, hmap, hlast⟩ :=
    Lexer.run_lines hpending (fun _ => hread.isGap.newline) hwords rfl
  rw [Lexer.run_of_scans rfl hexchange hkinds]
  exact ⟨herror, tokens, last, by rw [htokens], hmap, hlast⟩

/-! ## The first fault -/

/-- **Parsing fails at the first token that cannot be right.** -/
structure FirstFault (options : ParseOptions) (store : Store) (source : List Char) (e : ParseError)
    (before : List Token) (token : Token) (text : List Char) : Prop where
  /-- The tokens come first in the source. -/
  tokens_eq : before ++ [token] <+: (Lexer.ofChars source).run.tokens
  /-- The tokens before are read without an error, and then the token is not. -/
  fails : ∃ state w w', run options .definition before ⟨store, [], 0⟩ = .ok state w ∧
    step options state token w = .error e w'
  /-- This is what stands before the token. -/
  isBefore : Before source before token text
  /-- Some text behind it makes a text that parses, wherever there is room. -/
  viable : ∃ more, ∀ (options' : ParseOptions) (store' : Store),
    (text ++ more).length ≤ options'.maxDepth →
    store'.size + (text ++ more).length ≤ store'.maxNodes →
    ∃ unit, (parseChars options' store' (text ++ more)).outcome = .ok unit
  /-- No text parses whose tokens begin with the same words, whatever the room. -/
  fatal : ∀ (source' : List Char) (first rest : List Token),
    (Lexer.ofChars source').run.tokens = first ++ rest →
    first.map Token.word = (before ++ [token]).map Token.word →
    ∀ (options' : ParseOptions) (store' : Store) (unit : List DefId),
      (parseChars options' store' source').outcome ≠ .ok unit
  /-- The error stands at the token, or at the innermost open bracket if that is never closed. -/
  location_eq : e.location = match e.cause with
    | .unclosedScope _ => (openBrackets before).head?.map Token.location
    | _ => some token.location

/-- The start of a run fits. -/
theorem fits_definition : ParseState.definition.Fits [] 0 := ⟨rfl, Nat.le_refl 0⟩

/-- **The words that complete a state are read without an error**, with raised limits. -/
theorem run_completed {options : ParseOptions} {store : Store} {before tokens : List Token}
    {last : Token} {state : ParseState} {w : Workspace}
    (hrun : run options .definition before ⟨store, [], 0⟩ = .ok state w)
    (hmap : tokens.map Token.word =
      state.bare.finish (freshName (w.symbols.map Prod.fst))) (hlast : last.kind = .eof) :
    ∃ up next w', run (options.raise up) .definition
      (((before ++ tokens) ++ [last]).map Token.bare) ⟨store.bare up, [], 0⟩ = .ok next w' := by
  let up := store.size + ((before ++ tokens) ++ [last]).length
  refine ⟨up, ?_⟩
  cases hr : run (options.raise up) .definition (((before ++ tokens) ++ [last]).map Token.bare)
    ⟨store.bare up, [], 0⟩ with
  | ok next w' => exact ⟨next, w', rfl⟩
  | error e w' =>
    -- Only a limit could stop the words, but there is room for all of them.
    have hdepth : 0 + (((before ++ tokens) ++ [last]).map Token.bare).length ≤
        (options.raise up).maxDepth := by
      rw [List.length_map, ParseOptions.raise]
      simp only [up]
      omega
    have hfree := run_spends fits_definition hdepth 0 ⟨store.bare up, [], 0⟩ (by
      rw [List.length_map, Store.size_bare, Store.maxNodes_bare]
      simp only [ParseState.owed, up]
      omega)
    rw [hr] at hfree
    have hlimit : e.cause.isLimit = true := by
      rw [List.append_assoc, List.map_append, run_append, bind_of_eq_ok (run_bare_of_ok up hrun),
        List.map_append, List.map_singleton] at hr
      have hname : (w.bare up).symbols.lookup (freshName (w.symbols.map Prod.fst)) = none :=
        lookup_freshName w.symbols
      refine run_finish ?_ (show last.bare.kind = .eof from hlast) (fun _ => hname) hr
      rw [List.map_map, ← hmap]
      rfl
    rw [hfree] at hlimit
    cases hlimit

/-- **What has been read without an error begins a text that parses.** -/
theorem viable_of_run {options : ParseOptions} {store : Store} {source : List Char}
    {before : List Token} {token : Token} {text : List Char}
    (hbefore : Before source before token text) (hstop : ∀ t ∈ before, t.kind.isStop = false)
    {state : ParseState} {w : Workspace}
    (hrun : run options .definition before ⟨store, [], 0⟩ = .ok state w) :
    ∃ more, ∀ (options' : ParseOptions) (store' : Store),
      (text ++ more).length ≤ options'.maxDepth →
      store'.size + (text ++ more).length ≤ store'.maxNodes →
      ∃ unit, (parseChars options' store' (text ++ more)).outcome = .ok unit := by
  let name := freshName (w.symbols.map Prod.fst)
  have hwords := state.bare.legible_finish (w.symbols.map Prod.fst)
  obtain ⟨herror, tokens, last, htokens, hmap, hlast⟩ := run_before hbefore hstop hwords
  refine ⟨'\n' :: lines (state.bare.finish name), fun options' store' hdepth hnodes => ?_⟩
  have hsplit : (Lexer.ofChars (text ++ '\n' :: lines (state.bare.finish name))).run.tokens =
      (before ++ tokens) ++ [last] := by
    rw [htokens, List.append_assoc]
  have hlength : (before ++ tokens).length ≤
      (text ++ '\n' :: lines (state.bare.finish name)).length := by
    have hle := (Lexer.run_ofChars_whole (text ++ '\n' :: lines (state.bare.finish name))).length_le
    rw [hsplit, List.length_append, List.length_singleton] at hle
    exact Nat.le_of_succ_le_succ hle
  have hinits : ∀ t ∈ (before ++ tokens).map Token.bare, t.kind.isStop = false :=
    List.forall_mem_map.mpr (Lexer.isStop_of_before hsplit)
  obtain ⟨up, next, w', haccepted⟩ := run_completed hrun hmap hlast
  rw [List.map_append, List.map_singleton] at haccepted
  have hstop' : last.bare.kind.isStop = true := by
    rw [last.kind_bare, hlast]
    rfl
  obtain ⟨w₁, hbare⟩ := run_of_accepted hinits hstop' haccepted options'
    (by rw [List.length_map]; exact Nat.le_trans hlength hdepth) (store'.bare 0)
    (by rw [List.length_map, Store.size_bare, Store.maxNodes_bare]; omega)
  have hidem : ((before ++ tokens).map Token.bare ++ [last.bare]).map Token.bare =
      ((before ++ tokens) ++ [last]).map Token.bare := by
    rw [← List.map_singleton, ← List.map_append, List.map_map]
    rfl
  rw [hidem] at hbare
  obtain ⟨state', w₂, hparses⟩ := run_of_bare hbare
  exact accepted_iff.mpr ⟨herror, state', w₂, by rw [hsplit]; exact hparses⟩

/-- **What fails once fails always.** -/
theorem fatal_of_run {options : ParseOptions} {store : Store} {source : List Char}
    {tokens rest : List Token} (htokens : (Lexer.ofChars source).run.tokens = tokens ++ rest)
    {e : ParseError} {w : Workspace} (he : e.cause.isLimit = false)
    (hrun : run options .definition tokens ⟨store, [], 0⟩ = .error e w) {source' : List Char}
    {first rest' : List Token} (hsource' : (Lexer.ofChars source').run.tokens = first ++ rest')
    (hfirst : first.map Token.word = tokens.map Token.word) (options' : ParseOptions)
    (store' : Store) (unit : List DefId) :
    (parseChars options' store' source').outcome ≠ .ok unit := by
  intro hunit
  obtain ⟨herror, state, w', haccepted⟩ := accepted_iff.mp ⟨unit, hunit⟩
  obtain ⟨inits, last, heq, hlast, hinits⟩ := (Lexer.run_ofChars_whole source').ends herror
  rw [heq] at haccepted
  have hstop : last.kind.isStop = true := by
    rw [hlast]
    rfl
  have hbare : first.map Token.bare = tokens.map Token.bare := by
    refine map_bare_eq ?_ ?_ hfirst
    · exact (hsource' ▸ Lexer.run_numbered source').of_append
    · exact (htokens ▸ Lexer.run_numbered source).of_append
  let up := store.size + inits.length
  obtain ⟨w₁, hok⟩ := run_of_accepted hinits hstop haccepted (options.raise up)
    (by simp only [ParseOptions.raise]; omega) (store.bare up)
    (by rw [Store.size_bare, Store.maxNodes_bare]; omega)
  rw [← heq, hsource', List.map_append, hbare, run_append,
    bind_of_eq_error (run_bare_of_error up he hrun)] at hok
  cases hok

/-- **Parsing reports the first token that cannot be right.** With a node and a level for every
character and one more, every failure but a lexical one is of this kind. -/
theorem parseChars_firstFault {options : ParseOptions} {store : Store} {source : List Char}
    {e : ParseError} (hdepth : source.length < options.maxDepth)
    (hnodes : store.size + source.length < store.maxNodes)
    (h : (parseChars options store source).outcome = .error e) (hlexical : e.isLexical = false) :
    ∃ before token text, FirstFault options store source e before token text := by
  obtain ⟨w', herror⟩ := run_of_outcome h hlexical
  obtain ⟨before, token, after, state, w, htokens, hbefore, hstep⟩ := run_eq_error herror
  obtain ⟨pieces, here, gap, next, hscans, hpieces, hread⟩ := Lexer.scans_of_run rfl htokens
  have hisBefore : Before source before token (pieces.flatMap Lexer.Piece.chars ++ gap) :=
    ⟨pieces, here, gap, next, hscans, hpieces, hread, rfl⟩
  have hlength := (Lexer.run_ofChars_whole source).length_le
  rw [htokens, List.length_append, List.length_cons] at hlength
  change _ ≤ source.length + 1 at hlength
  have hblames : Blames token (openBrackets before) e := by
    have hlevels : 0 + before.length ≤ options.maxDepth := by omega
    have hspends := run_spends fits_definition hlevels 1 ⟨store, [], 0⟩
      (by simp only [ParseState.owed]; omega)
    rw [hbefore] at hspends
    obtain ⟨hfits, hroom⟩ := hspends
    have hlevel : 0 + before.length + 1 ≤ options.maxDepth := by omega
    have htoken := step_spends hfits hlevel token 0 w (by omega)
    rw [hstep] at htoken
    exact htoken
  have hfails : run options .definition (before ++ [token]) ⟨store, [], 0⟩ = .error e w' := by
    rw [run_append, bind_of_eq_ok hbefore, run_cons, bind_of_eq_error hstep]
  have hsplit : (Lexer.ofChars source).run.tokens = (before ++ [token]) ++ after := by
    rw [htokens]
    simp
  exact ⟨before, token, _, ⟨after, hsplit.symm⟩, ⟨state, w, w', hbefore, hstep⟩, hisBefore,
    viable_of_run hisBefore (Lexer.isStop_of_before htokens) hbefore,
    fun source' first rest hsource' hfirst => fatal_of_run hsplit hblames.1 hfails hsource' hfirst,
    hblames.2⟩

/-- A scope inside a further branch is never closed, and the text ends with a comment. -/
theorem firstFault_unclosedScope :
    ∃ before token text, FirstFault {} (Store.empty 100)
      "func f \x7b if (1) \x7b \x7d elif [ 2 // go".toList ⟨.unclosedScope "[", some ⟨1, 26⟩⟩
      before token text :=
  parseChars_firstFault (by decide +kernel) (by decide +kernel) (by decide +kernel) rfl

end StackCompiler
