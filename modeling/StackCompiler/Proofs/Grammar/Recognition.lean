import StackCompiler.Proofs.Grammar.Simulation
import StackCompiler.Proofs.Grammar.Steps
import StackCompiler.Proofs.Token.Faithful

/-!
# What parsing accepts

A state asks something of the tokens still to come: the rest of what it is in the middle of, a
closing bracket for every open scope, and what the purpose of each scope asks for after it. Every
run that succeeds meets what its first state asks for, so the tokens of an accepted unit are those
of phrases.

* `OpenScope.Asks`, `ParseState.Asks`: what open scopes and states ask for.
* `ParseState.Tidy`: chains are open only where a branch is being read.
* **`asks_of_step`**: what a step leaves to be asked for.
* **`isUnit_of_run`**: an accepted run has read definitions.
* **`parseChars_eq_ok`**: a text is accepted if it derives from definitions that can be built.
-/

namespace StackCompiler

/-! ## Languages -/

/-- Definitions in a row. -/
def IsUnit (tokens : List Token) : Prop :=
  ∃ ds : List DefinitionPhrase, tokens = ds.flatMap DefinitionPhrase.tokens

/-- A token of a class, and then what `next` asks for. -/
def Reads (p : Token → Prop) (next : List Token → Prop) (tokens : List Token) : Prop :=
  ∃ token rest, tokens = token :: rest ∧ p token ∧ next rest

/-- A token of a kind, and then what `next` asks for. -/
abbrev ReadsKind (kind : TokenKind) (next : List Token → Prop) : List Token → Prop :=
  Reads (fun token => token.kind = kind) next

/-- A phrase, and then what `next` asks for. -/
def Begins (n : Nonterminal) (next : List Token → Prop) (tokens : List Token) : Prop :=
  ∃ (p : Phrase n) (rest : List Token), tokens = p.tokens ++ rest ∧ next rest

/-- Blocks, a closing bracket, and then what `next` asks for. -/
abbrev Inside (bracket : Bracket) (next : List Token → Prop) : List Token → Prop :=
  Begins .blocks (ReadsKind (.closing bracket) next)

theorem Inside.cons {bracket : Bracket} {next : List Token → Prop} (p : Phrase .block)
    {tokens : List Token} (h : Inside bracket next tokens) :
    Inside bracket next (p.tokens ++ tokens) := by
  obtain ⟨inside, rest, rfl, hrest⟩ := h
  exact ⟨.cons p inside, rest, by simp [Phrase.tokens], hrest⟩

/-- After a nested scope, what its purpose asks for. -/
def Purpose.Asks (next : List Token → Prop) : Purpose → List Token → Prop
  | .plain | .alternative .. | .loopBody .. => next
  | .branchCondition .. => Begins .scope (Begins .chain next)
  | .branchBody .. => Begins .chain next
  | .loopCondition .. => Begins .scope next

/-- **After the innermost scope, what the scopes around it ask for.** -/
def OpenScope.Asks : OpenScope → List Token → Prop
  | .function .. => IsUnit
  | .nested _ purpose outer => purpose.Asks (Inside outer.interior.bracket outer.Asks)

/-- From here to the end of the innermost scope and of everything around it. -/
abbrev OpenScope.InsideAsks (scope : OpenScope) : List Token → Prop :=
  Inside scope.interior.bracket scope.Asks

/-! ## Headers -/

/-- The body of a function, and more definitions. -/
def BodyAsks : List Token → Prop := ReadsKind (.opening .brace) (Inside .brace IsUnit)

/-- A signature, and then what `next` asks for. -/
def SignatureAsks (next : List Token → Prop) (tokens : List Token) : Prop :=
  ∃ (s : SignaturePhrase) (rest : List Token), tokens = s.tokens ++ rest ∧ next rest

/-- What ends a signature, in parentheses or not, and then the body. -/
def EndAsks (parens : Bool) : List Token → Prop :=
  if parens then ReadsKind (.closing .paren) (SignatureAsks BodyAsks) else BodyAsks

/-- The signatures of a function, and its body. -/
def HeadAsks (tokens : List Token) : Prop :=
  ∃ parens rest, tokens = parensTokens parens ++ rest ∧ SignatureAsks BodyAsks rest

/-- Types that make a run together with those before, and then what `next` asks for. -/
def TypesAsk (before : List Token) (next : List Token → Prop) (tokens : List Token) : Prop :=
  ∃ more rest, tokens = more ++ rest ∧ (∀ t ∈ more, t.kind.isType) ∧ before ++ more ≠ [] ∧ next rest

/-- What follows a clause of a signature. -/
def ClauseAsks (parens : Bool) : Clause → List Token → Prop
  | .requires => fun tokens => ∃ (returns : Option (ClausePhrase .returns)) (rest : List Token),
      tokens = returns.elim [] ClausePhrase.tokens ++ rest ∧ EndAsks parens rest
  | .returns => EndAsks parens

/-- What follows the name of a definition. -/
def FamilyAsks : Family → List Token → Prop
  | .function => HeadAsks
  | .memory => Reads IsSize IsUnit
  | .string => Reads (fun token => token.kind.isStringLiteral) IsUnit

/-- A definition from its keyword on, and more definitions. -/
def SubjectAsks (tokens : List Token) : Prop :=
  ∃ (s : SubjectPhrase) (rest : List Token), tokens = s.tokens ++ rest ∧ IsUnit rest

/-! ## States -/

/-- Does the newest block of the innermost scope name a function? -/
def OpenScope.namesLast (scope : OpenScope) (store : Store) : Bool :=
  match scope.interior.blocks with
  | [] => false
  | id :: _ => namesFunction store id

/-- **What a state asks for.** After a name that stands for a function, `call` may follow. -/
def ParseState.Asks (store : Store) : ParseState → List Token → Prop
  | .definition => IsUnit
  | .sectionName => ReadsKind .identifier SubjectAsks
  | .definitionKeyword _ => SubjectAsks
  | .definitionName family _ _ => ReadsKind .identifier (FamilyAsks family)
  | .afterName _ => HeadAsks
  | .signature _ _ parens => SignatureAsks (EndAsks parens)
  | .clauseTypes _ _ parens clause _ types => TypesAsk types (ClauseAsks parens clause)
  | .capacity _ => FamilyAsks .memory
  | .literal _ => FamilyAsks .string
  | .block scope => fun tokens => scope.InsideAsks tokens ∨
      (scope.namesLast store = true ∧ ReadsKind (.keyword .call) scope.InsideAsks tokens)
  | .castTypes scope _ types => TypesAsk types scope.InsideAsks
  | .assemblyLine scope _ => Reads (fun token => token.kind.isStringLiteral) scope.InsideAsks
  | .opening scope purpose => Begins .scope (purpose.Asks scope.InsideAsks)
  | .afterBranch scope _ => Begins .chain scope.InsideAsks

/-- Is the scope a part of a branch? -/
def Purpose.isBranch : Purpose → Bool
  | .branchCondition .. | .branchBody .. | .alternative .. => true
  | .plain | .loopCondition .. | .loopBody .. => false

/-- **Chains are open only around the parts of a branch.** -/
def OpenScope.Tidy : OpenScope → Prop
  | .function .. => True
  | .nested _ purpose outer =>
    (purpose.isBranch = false → outer.interior.chains = []) ∧ outer.Tidy

/-- **Chains are open only while a branch is being read**, and a branch names no function. -/
def ParseState.Tidy (store : Store) : ParseState → Prop
  | .block scope | .castTypes scope _ _ | .assemblyLine scope _ =>
    scope.interior.chains = [] ∧ scope.Tidy
  | .opening scope purpose =>
    (purpose.isBranch = false → scope.interior.chains = []) ∧ scope.Tidy
  | .afterBranch scope _ =>
    (scope.interior.chains = [] → scope.namesLast store = false) ∧ scope.Tidy
  | _ => True

/-- Is the block a reference? -/
def Block.isReference : Block → Bool
  | .reference .. => true
  | _ => false

/-! ## Changes of the innermost scope -/

namespace OpenScope

section Modify

variable (f : Interior → Interior) (scope : OpenScope)

theorem interior_modify : (scope.modify f).interior = f scope.interior := by cases scope <;> rfl

theorem asks_modify : (scope.modify f).Asks = scope.Asks := by cases scope <;> rfl

theorem tidy_modify : (scope.modify f).Tidy ↔ scope.Tidy := by cases scope <;> rfl

end Modify

section Push

variable (scope : OpenScope) (id : BlockId)

theorem tidy_push : (scope.push id).Tidy ↔ scope.Tidy := tidy_modify ..

theorem insideAsks_push : (scope.push id).InsideAsks = scope.InsideAsks := by
  have hbracket : (scope.push id).interior.bracket = scope.interior.bracket := by
    rw [push, interior_modify]
    split <;> rfl
  rw [InsideAsks, hbracket, push, asks_modify]

theorem insideAsks_openChain (chain : Chain) :
    (scope.openChain chain).InsideAsks = scope.InsideAsks := by
  rw [InsideAsks, openChain, interior_modify, asks_modify]

end Push

theorem chains_of_push {scope : OpenScope} {id : BlockId}
    (h : (scope.push id).interior.chains = []) : scope.interior.chains = [] := by
  rw [push, interior_modify] at h
  split at h
  · assumption
  · cases h

/-- A block that is no reference names no function. -/
theorem namesLast_push {scope : OpenScope} {store : Store} {block : Block}
    (hblock : block.isReference = false)
    (h : (scope.push store.nextBlock).interior.chains = []) :
    (scope.push store.nextBlock).namesLast (store.withBlock block) = false := by
  rw [push_eq_modify (chains_of_push h), namesLast, interior_modify]
  change namesFunction (store.withBlock block) store.nextBlock = false
  rw [namesFunction, Store.block?_withBlock]
  cases block with
  | reference token target => cases hblock
  | _ => rfl

end OpenScope

/-! ## Settling -/

theorem namesFunction_joined (store : Store) (branch alternative id : BlockId) :
    namesFunction (store.modifyBlock branch (joined alternative)) id = namesFunction store id := by
  rw [namesFunction, namesFunction, Store.block?_modifyBlock, Store.def?_modifyBlock]
  split_ifs
  · cases store.block? id with
    | none => rfl
    | some block => cases block <;> rfl
  · rfl

theorem OpenScope.namesLast_joined (scope : OpenScope) (store : Store)
    (branch alternative : BlockId) :
    scope.namesLast (store.modifyBlock branch (joined alternative)) = scope.namesLast store := by
  rw [namesLast, namesLast]
  split
  · rfl
  · exact namesFunction_joined ..

theorem closeChains_of_cons {finished : List BlockId} {chains : List Chain} (hne : chains ≠ [])
    {w w' : Workspace} {ids : List BlockId} (h : closeChains finished chains w = .ok ids w') :
    ∃ alternative, ids = [alternative] ∧ namesFunction w'.store alternative = false := by
  induction chains generalizing finished w with
  | nil => exact absurd rfl hne
  | cons chain outer ih =>
    simp only [closeChains, bind_eq_ok, joinAlternative_eq] at h
    obtain ⟨body, w₁, _, alternative, w₂, h₂, _, w₃, h₃, h⟩ := h
    cases h₃
    cases outer with
    | nil =>
      obtain ⟨rfl, rfl⟩ := pure_eq_ok.mp h
      obtain ⟨-, rfl, rfl⟩ := addBlock_eq_ok.mp h₂
      refine ⟨_, rfl, ?_⟩
      rw [namesFunction_joined, namesFunction, Store.block?_withBlock]
    | cons next outer => exact ih (List.cons_ne_nil _ _) h

/-- **A branch that ends leaves no chain open**, and no name at the end of the scope. -/
theorem settle_eq_ok {scope scope' : OpenScope} {w w' : Workspace}
    (h : settle scope w = .ok scope' w')
    (hlast : scope.interior.chains = [] → scope.namesLast w.store = false) :
    scope'.interior.chains = [] ∧ (scope'.Tidy ↔ scope.Tidy) ∧
      scope'.InsideAsks = scope.InsideAsks ∧ scope'.namesLast w'.store = false := by
  obtain ⟨finished, w₁, hclose, h⟩ := bind_eq_ok.mp h
  obtain ⟨rfl, rfl⟩ := pure_eq_ok.mp h
  refine ⟨by rw [OpenScope.interior_modify], OpenScope.tidy_modify .., ?_, ?_⟩
  · rw [OpenScope.InsideAsks, OpenScope.interior_modify, OpenScope.asks_modify]
  · rw [OpenScope.namesLast, OpenScope.interior_modify]
    cases hchains : scope.interior.chains with
    | nil =>
      rw [hchains] at hclose
      obtain ⟨rfl, rfl⟩ := pure_eq_ok.mp hclose
      exact hlast hchains
    | cons chain outer =>
      rw [hchains] at hclose
      obtain ⟨alternative, rfl, halt⟩ := closeChains_of_cons (List.cons_ne_nil _ _) hclose
      exact halt

/-! ## Steps inside a function -/

section Inside

variable {options : ParseOptions} {w w' : Workspace} {state : ParseState}

/-- A state that asks for no more than its predecessor does after a token. -/
def LeadsTo (w : Workspace) (state : ParseState) (token : Token) (w' : Workspace)
    (next : ParseState) : Prop :=
  next.Tidy w'.store ∧ ∀ tokens, next.Asks w'.store tokens → state.Asks w.store (token :: tokens)

/-- A block that is no reference was added to the innermost scope. -/
theorem asks_push {scope : OpenScope} (hchains : scope.interior.chains = []) (htidy : scope.Tidy)
    {block : Block} (hblock : block.isReference = false) {id : BlockId}
    (h : addBlock block w = .ok id w') :
    (ParseState.block (scope.push id)).Tidy w'.store ∧
      ∀ tokens, (ParseState.block (scope.push id)).Asks w'.store tokens →
        scope.InsideAsks tokens := by
  obtain ⟨-, rfl, rfl⟩ := addBlock_eq_ok.mp h
  refine ⟨⟨OpenScope.chains_push hchains _, (OpenScope.tidy_push ..).mpr htidy⟩, ?_⟩
  rintro tokens (h | ⟨h, -⟩)
  · rwa [OpenScope.insideAsks_push] at h
  · rw [OpenScope.namesLast_push hblock (OpenScope.chains_push hchains _)] at h
    cases h

/-- **The innermost scope closes.** -/
theorem asks_closeScope {scope : OpenScope} (htidy : scope.Tidy)
    (h : closeScope scope w = .ok state w') :
    state.Tidy w'.store ∧ ∀ tokens, state.Asks w'.store tokens → scope.Asks tokens := by
  cases scope with
  | function interior body =>
    obtain ⟨_, w₁, -, h⟩ := bind_eq_ok.mp h
    obtain ⟨rfl, rfl⟩ := pure_eq_ok.mp h
    exact ⟨trivial, fun _ h => h⟩
  | nested interior purpose outer =>
    rw [closeScope_nested, bind_eq_ok] at h
    obtain ⟨id, w₁, hadd, h⟩ := h
    cases purpose with
    | plain =>
      obtain ⟨rfl, rfl⟩ := pure_eq_ok.mp h
      exact asks_push (htidy.1 rfl) htidy.2 rfl hadd
    | branchCondition keyword index =>
      obtain ⟨rfl, rfl⟩ := pure_eq_ok.mp h
      exact ⟨⟨by simp [Purpose.isBranch], htidy.2⟩, fun _ h => h⟩
    | branchBody keyword index condition =>
      obtain ⟨branch, w₂, hbranch, h⟩ := bind_eq_ok.mp h
      obtain ⟨rfl, rfl⟩ := pure_eq_ok.mp h
      obtain ⟨-, rfl, rfl⟩ := addBlock_eq_ok.mp hbranch
      refine ⟨⟨OpenScope.namesLast_push rfl, (OpenScope.tidy_push ..).mpr htidy.2⟩,
        fun tokens h => ?_⟩
      rwa [ParseState.Asks, OpenScope.insideAsks_push] at h
    | alternative keyword index branch =>
      simp only [serve, bind_eq_ok, joinAlternative_eq] at h
      obtain ⟨alternative, w₂, halternative, _, w₃, h₃, scope', w₄, hsettle, h⟩ := h
      cases h₃
      obtain ⟨rfl, rfl⟩ := pure_eq_ok.mp h
      obtain ⟨-, rfl, rfl⟩ := addBlock_eq_ok.mp halternative
      obtain ⟨hchains, htidy', hasks, hlast⟩ := settle_eq_ok hsettle fun hchains => by
        rw [OpenScope.namesLast_joined]
        exact OpenScope.namesLast_push rfl hchains
      refine ⟨⟨hchains, htidy'.mpr ((OpenScope.tidy_push ..).mpr htidy.2)⟩, ?_⟩
      rintro tokens (h | ⟨h, -⟩)
      · rwa [hasks, OpenScope.insideAsks_push] at h
      · rw [hlast] at h
        cases h
    | loopCondition keyword index =>
      obtain ⟨rfl, rfl⟩ := pure_eq_ok.mp h
      exact ⟨⟨fun _ => htidy.1 rfl, htidy.2⟩, fun _ h => h⟩
    | loopBody keyword index condition =>
      obtain ⟨loop, w₂, hloop, h⟩ := bind_eq_ok.mp h
      obtain ⟨rfl, rfl⟩ := pure_eq_ok.mp h
      exact asks_push (htidy.1 rfl) htidy.2 rfl hloop

/-- A scope opens. -/
theorem asks_openScope {scope : OpenScope} {purpose : Purpose} {bracket : Bracket}
    {opener : Token} (hk : opener.kind = .opening bracket) (htidy : scope.Tidy)
    (hpurpose : purpose.isBranch = false → scope.interior.chains = [])
    (h : openScope options scope purpose bracket opener w = .ok state w') :
    state.Tidy w'.store ∧ ∀ tokens, state.Asks w'.store tokens →
      Begins .scope (purpose.Asks scope.InsideAsks) (opener :: tokens) := by
  rw [openScope_eq, bind_eq_ok] at h
  obtain ⟨_, w₁, -, h⟩ := h
  obtain ⟨rfl, rfl⟩ := pure_eq_ok.mp h
  refine ⟨⟨rfl, hpurpose, htidy⟩, ?_⟩
  rintro _ (⟨inside, _, rfl, closer, rest, rfl, hcloser, hrest⟩ | ⟨h, -⟩)
  · exact ⟨.enclosed bracket ⟨opener, hk⟩ inside ⟨closer, hcloser⟩, rest, by simp [Phrase.tokens],
      hrest⟩
  · cases h

/-- `call` takes the name before it. -/
theorem asks_call {scope : OpenScope} {token : Token} (hk : token.kind = .keyword .call)
    (hchains : scope.interior.chains = []) (htidy : scope.Tidy)
    (h : call scope token w = .ok state w') :
    LeadsTo w (.block scope) token w' state := by
  rw [call] at h
  cases hblocks : scope.interior.blocks with
  | nil =>
    rw [hblocks] at h
    exact absurd h failAt_ne_ok
  | cons callee before =>
    rw [hblocks] at h
    simp only [get_bind] at h
    split_ifs at h with hnames
    · rw [addTo_bind, bind_eq_ok] at h
      obtain ⟨id, w₁, hadd, h⟩ := h
      obtain ⟨rfl, rfl⟩ := pure_eq_ok.mp h
      have hbefore : (scope.modify fun interior =>
          { interior with blocks := before }).interior.chains = [] := by
        rw [OpenScope.interior_modify]
        exact hchains
      obtain ⟨htidy', hasks⟩ :=
        asks_push hbefore ((OpenScope.tidy_modify ..).mpr htidy) rfl hadd
      refine ⟨htidy', fun tokens htokens => .inr ⟨?_, token, tokens, rfl, hk, ?_⟩⟩
      · rw [OpenScope.namesLast, hblocks]
        exact hnames
      · have := hasks tokens htokens
        rwa [OpenScope.InsideAsks, OpenScope.interior_modify, OpenScope.asks_modify] at this
    · exact absurd h failAt_ne_ok

/-- A name is read; a call may follow. -/
theorem asks_identifier {scope : OpenScope} {token : Token} (hk : token.kind = .identifier)
    (hchains : scope.interior.chains = []) (htidy : scope.Tidy)
    (h : inScope options scope token w = .ok state w') :
    LeadsTo w (.block scope) token w' state := by
  rw [inScope_of_identifier options scope ⟨token, hk⟩, bind_eq_ok] at h
  obtain ⟨id, w₁, -, h⟩ := h
  obtain ⟨rfl, rfl⟩ := pure_eq_ok.mp h
  refine ⟨⟨OpenScope.chains_push hchains _, (OpenScope.tidy_push ..).mpr htidy⟩, ?_⟩
  rintro tokens (h | ⟨-, keyword, rest, rfl, hcall, h⟩)
  · rw [OpenScope.insideAsks_push] at h
    exact .inl (h.cons (.reference ⟨token, hk⟩))
  · rw [OpenScope.insideAsks_push] at h
    exact .inl (h.cons (.call ⟨token, hk⟩ ⟨keyword, hcall⟩))

/-- **A token inside a scope.** -/
theorem asks_inScope {scope : OpenScope} {token : Token} (hchains : scope.interior.chains = [])
    (htidy : scope.Tidy) (h : inScope options scope token w = .ok state w') :
    LeadsTo w (.block scope) token w' state := by
  by_cases hclose : token.kind = .closing scope.interior.bracket
  · rw [inScope_of_closing _ _ hclose] at h
    obtain ⟨htidy', hasks⟩ := asks_closeScope htidy h
    exact ⟨htidy', fun tokens htokens =>
      .inl ⟨.nil, token :: tokens, rfl, token, tokens, rfl, hclose, hasks tokens htokens⟩⟩
  by_cases hexpression : token.kind.isExpression
  · rw [inScope_of_expression options scope ⟨token, hexpression⟩, bind_eq_ok] at h
    obtain ⟨id, w₁, hadd, h⟩ := h
    obtain ⟨rfl, rfl⟩ := pure_eq_ok.mp h
    obtain ⟨htidy', hasks⟩ := asks_push hchains htidy rfl hadd
    exact ⟨htidy', fun tokens htokens =>
      .inl ((hasks tokens htokens).cons (.expression ⟨token, hexpression⟩))⟩
  have hfail : ∀ {cause : ParseFault} {other : Token}, failAt other cause w ≠ .ok state w' :=
    failAt_ne_ok
  cases hk : token.kind with
  | operator operator | number type => simp [hk, TokenKind.isExpression] at hexpression
  | identifier => exact asks_identifier hk hchains htidy h
  | opening bracket =>
    rw [inScope_of_opening options scope ⟨token, hk⟩] at h
    obtain ⟨htidy', hasks⟩ := asks_openScope hk htidy (fun _ => hchains) h
    refine ⟨htidy', fun tokens htokens => .inl ?_⟩
    obtain ⟨p, rest, hp, hrest⟩ := hasks tokens htokens
    rw [hp]
    exact Inside.cons (.nested p) hrest
  | closing bracket =>
    have hstop : token.kind.isStop = false := by rw [hk]; rfl
    have hclosing : token.kind.isClosing = true := by rw [hk]; rfl
    rw [inScope, if_neg hclose, hstop, hclosing] at h
    exact absurd h hfail
  | eof | none =>
    have hstop : token.kind.isStop = true := by rw [hk]; rfl
    rw [inScope, if_neg hclose, hstop] at h
    exact absurd h hfail
  | typeName type | string terminated =>
    rw [inScope_of_begins options scope (by rw [hk]; rfl) (by rw [hk]; rfl) (by rw [hk]; rfl),
      beginBlock, hk] at h
    exact absurd h hfail
  | keyword keyword =>
    by_cases hdef : token.kind.isDefinitionKeyword
    · have hstop : token.kind.isStop = false := by rw [hk]; rfl
      have hclosing : token.kind.isClosing = false := by rw [hk]; rfl
      rw [inScope, if_neg hclose, hstop, hclosing, hdef] at h
      exact absurd h hfail
    rw [inScope_of_begins options scope (by rw [hk]; rfl) (by rw [hk]; rfl)
      (Bool.eq_false_iff.mpr hdef), beginBlock, hk] at h
    cases keyword with
    | call => exact asks_call hk hchains htidy h
    | asType =>
      obtain ⟨rfl, rfl⟩ := pure_eq_ok.mp h
      refine ⟨⟨hchains, htidy⟩, ?_⟩
      rintro _ ⟨types, rest, rfl, htypes, hne, hrest⟩
      exact .inl (hrest.cons (.cast ⟨token, hk⟩ ⟨types, hne, htypes⟩))
    | condition =>
      obtain ⟨index, w₁, -, h⟩ := bind_eq_ok.mp h
      obtain ⟨rfl, rfl⟩ := pure_eq_ok.mp h
      refine ⟨⟨by simp [Purpose.isBranch], htidy⟩, ?_⟩
      rintro _ ⟨condition, _, rfl, body, _, rfl, chain, rest, rfl, hrest⟩
      have := hrest.cons (.branch ⟨token, hk⟩ condition body chain)
      exact .inl (by simpa [Phrase.tokens] using this)
    | loop =>
      obtain ⟨index, w₁, -, h⟩ := bind_eq_ok.mp h
      obtain ⟨rfl, rfl⟩ := pure_eq_ok.mp h
      refine ⟨⟨fun _ => hchains, htidy⟩, ?_⟩
      rintro _ ⟨condition, _, rfl, body, rest, rfl, hrest⟩
      have := hrest.cons (.loop ⟨token, hk⟩ condition body)
      exact .inl (by simpa [Phrase.tokens] using this)
    | assembly =>
      obtain ⟨rfl, rfl⟩ := pure_eq_ok.mp h
      refine ⟨⟨hchains, htidy⟩, ?_⟩
      rintro _ ⟨literal, rest, rfl, hliteral, hrest⟩
      exact .inl (hrest.cons (.assembly ⟨token, hk⟩ ⟨literal, hliteral⟩))
    | _ => exact absurd h hfail

/-- One more type of a cast, or what follows it. -/
theorem asks_castType {scope : OpenScope} {keyword token : Token} {types : List Token}
    (hchains : scope.interior.chains = []) (htidy : scope.Tidy)
    (h : castType options scope keyword types token w = .ok state w') :
    LeadsTo w (.castTypes scope keyword types) token w' state := by
  rw [castType] at h
  split_ifs at h with htype hempty
  · obtain ⟨rfl, rfl⟩ := pure_eq_ok.mp h
    refine ⟨⟨hchains, htidy⟩, ?_⟩
    rintro _ ⟨more, rest, rfl, hmore, hne, hrest⟩
    refine ⟨token :: more, rest, rfl, ?_, by simp, hrest⟩
    exact fun t ht => (List.mem_cons.mp ht).elim (fun e => e ▸ htype) (hmore t)
  · exact absurd h reject_ne_ok
  · rw [addTo_bind, bind_eq_ok] at h
    obtain ⟨id, w₁, hadd, h⟩ := h
    obtain ⟨hpush, hasks⟩ := asks_push hchains htidy rfl hadd
    obtain ⟨htidy', hnext⟩ := asks_inScope hpush.1 hpush.2 h
    refine ⟨htidy', fun tokens htokens => ?_⟩
    refine ⟨[], token :: tokens, rfl, by simp, by simpa using hempty, ?_⟩
    exact hasks _ (hnext tokens htokens)

/-- What follows a branch. -/
theorem asks_afterBranch {scope : OpenScope} {branch : BlockId} {token : Token}
    (hlast : scope.interior.chains = [] → scope.namesLast w.store = false) (htidy : scope.Tidy)
    (h : afterBranch options scope branch token w = .ok state w') :
    LeadsTo w (.afterBranch scope branch) token w' state := by
  by_cases hk : token.kind = .keyword .otherwise
  · rw [afterBranch, hk] at h
    obtain ⟨index, w₁, -, h⟩ := bind_eq_ok.mp h
    obtain ⟨rfl, rfl⟩ := pure_eq_ok.mp h
    refine ⟨⟨by simp [Purpose.isBranch], htidy⟩, ?_⟩
    rintro _ ⟨body, rest, rfl, hrest⟩
    exact ⟨.otherwise ⟨token, hk⟩ body, rest, rfl, hrest⟩
  by_cases hk' : token.kind = .keyword .elseIf
  · simp only [afterBranch, hk', bind_eq_ok] at h
    obtain ⟨index, w₁, -, inner, w₂, -, h⟩ := h
    obtain ⟨rfl, rfl⟩ := pure_eq_ok.mp h
    refine ⟨⟨by simp [Purpose.isBranch], (OpenScope.tidy_modify ..).mpr htidy⟩, ?_⟩
    rintro _ ⟨condition, _, rfl, body, _, rfl, chain, rest, rfl, hrest⟩
    rw [OpenScope.insideAsks_openChain] at hrest
    exact ⟨.elseIf ⟨token, hk'⟩ condition body chain, rest, by simp [Phrase.tokens], hrest⟩
  rw [afterBranch_of_ne options scope branch hk hk', bind_eq_ok] at h
  obtain ⟨scope', w₁, hsettle, h⟩ := h
  obtain ⟨hchains, htidy', hasks, hnames⟩ := settle_eq_ok hsettle hlast
  obtain ⟨htidy'', hnext⟩ := asks_inScope hchains (htidy'.mpr htidy) h
  refine ⟨htidy'', fun tokens htokens => ⟨.stop, token :: tokens, rfl, ?_⟩⟩
  rcases hnext tokens htokens with h | ⟨h, -⟩
  · rwa [hasks] at h
  · rw [hnames] at h
    cases h

end Inside

/-! ## Steps of a header -/

section Header

variable {options : ParseOptions} {w w' : Workspace} {state : ParseState} {token : Token}

/-- The keyword that opens definitions of a family. -/
def Family.word : Family → Keyword
  | .function => .function
  | .memory => .memory
  | .string => .string

theorem kind_of_family {kind : TokenKind} {family : Family}
    (h : Family.ofKind? kind = some family) : kind = .keyword family.word := by
  cases kind with
  | keyword keyword => cases keyword <;> cases h <;> rfl
  | _ => cases h

theorem asks_beginDefinition {place : Option Token}
    (h : beginDefinition place token w = .ok state w') :
    state.Tidy w'.store ∧ ∀ tokens, state.Asks w'.store tokens → SubjectAsks (token :: tokens) := by
  rw [beginDefinition] at h
  cases hfamily : Family.ofKind? token.kind with
  | none =>
    rw [hfamily] at h
    exact absurd h reject_ne_ok
  | some family =>
    rw [hfamily] at h
    obtain ⟨rfl, rfl⟩ := pure_eq_ok.mp h
    refine ⟨trivial, ?_⟩
    rintro _ ⟨name, rest, rfl, hname, hrest⟩
    have hk := kind_of_family hfamily
    cases family with
    | function =>
      obtain ⟨parens, _, rfl, signature, _, rfl, opener, _, rfl, hopener, inside, _, rfl, closer,
        rest, rfl, hcloser, hrest⟩ := hrest
      exact ⟨.function ⟨⟨token, hk⟩, ⟨name, hname⟩, parens, signature, ⟨opener, hopener⟩, inside,
        ⟨closer, hcloser⟩⟩, rest, by simp [SubjectPhrase.tokens], hrest⟩
    | memory =>
      obtain ⟨capacity, rest, rfl, hcapacity, hrest⟩ := hrest
      exact ⟨.memory ⟨⟨token, hk⟩, ⟨name, hname⟩, ⟨capacity, hcapacity⟩⟩, rest, rfl, hrest⟩
    | string =>
      obtain ⟨literal, rest, rfl, hliteral, hrest⟩ := hrest
      exact ⟨.string ⟨⟨token, hk⟩, ⟨name, hname⟩, ⟨literal, hliteral⟩⟩, rest, rfl, hrest⟩

theorem asks_endSignature {header : Header} {signature : Signature} {parens : Bool}
    (h : endSignature options header signature parens token w = .ok state w') :
    state.Tidy w'.store ∧
      ∀ tokens, state.Asks w'.store tokens → EndAsks parens (token :: tokens) := by
  rw [endSignature] at h
  split_ifs at h with hparens hk hk
  · obtain ⟨rfl, rfl⟩ := pure_eq_ok.mp h
    refine ⟨trivial, fun tokens htokens => ?_⟩
    rw [EndAsks, if_pos hparens]
    exact ⟨token, tokens, rfl, hk, htokens⟩
  · exact absurd h reject_ne_ok
  · rw [openFunction_eq, bind_eq_ok] at h
    obtain ⟨body, w₁, -, h⟩ := h
    obtain ⟨rfl, rfl⟩ := pure_eq_ok.mp h
    refine ⟨⟨rfl, trivial⟩, fun tokens htokens => ?_⟩
    rw [EndAsks, if_neg hparens]
    rcases htokens with h | ⟨h, -⟩
    · exact ⟨token, tokens, rfl, hk, h⟩
    · cases h
  · exact absurd h reject_ne_ok

theorem asks_clauseType {header : Header} {signature : Signature} {parens : Bool} {clause : Clause}
    {keyword : Token} {types : List Token}
    (h : clauseType options header signature parens clause keyword types token w = .ok state w') :
    LeadsTo w (.clauseTypes header signature parens clause keyword types) token w' state := by
  rw [clauseType] at h
  split_ifs at h with htype hempty hreturns
  · obtain ⟨rfl, rfl⟩ := pure_eq_ok.mp h
    refine ⟨trivial, ?_⟩
    rintro _ ⟨more, rest, rfl, hmore, hne, hrest⟩
    refine ⟨token :: more, rest, rfl, ?_, by simp, hrest⟩
    exact fun t ht => (List.mem_cons.mp ht).elim (fun e => e ▸ htype) (hmore t)
  · exact absurd h reject_ne_ok
  · obtain ⟨rfl, rfl⟩ := pure_eq_ok.mp h
    obtain ⟨rfl, hk⟩ := hreturns
    refine ⟨trivial, ?_⟩
    rintro _ ⟨more, rest, rfl, hmore, hne, hrest⟩
    exact ⟨[], _, rfl, by simp, by simpa using hempty, some ⟨⟨token, hk⟩, ⟨more, hne, hmore⟩⟩, rest,
      rfl, hrest⟩
  · obtain ⟨htidy, hasks⟩ := asks_endSignature h
    refine ⟨htidy, fun tokens htokens => ⟨[], _, rfl, by simp, by simpa using hempty, ?_⟩⟩
    cases clause with
    | requires => exact ⟨none, _, rfl, hasks tokens htokens⟩
    | returns => exact hasks tokens htokens

theorem asks_beginSignature {header : Header} {signature : Signature} {parens : Bool}
    (h : beginSignature options header signature parens token w = .ok state w') :
    state.Tidy w'.store ∧
      ∀ tokens, state.Asks w'.store tokens → SignatureAsks (EndAsks parens) (token :: tokens) := by
  by_cases hk : token.kind = .keyword .requires
  · rw [beginSignature, hk] at h
    obtain ⟨rfl, rfl⟩ := pure_eq_ok.mp h
    refine ⟨trivial, ?_⟩
    rintro _ ⟨types, _, rfl, htypes, hne, returns, rest, rfl, hrest⟩
    refine ⟨⟨some ⟨⟨token, hk⟩, ⟨types, hne, htypes⟩⟩, returns⟩, rest, ?_, hrest⟩
    simp [SignaturePhrase.tokens, ClausePhrase.tokens]
  by_cases hk' : token.kind = .keyword .returns
  · rw [beginSignature, hk'] at h
    obtain ⟨rfl, rfl⟩ := pure_eq_ok.mp h
    refine ⟨trivial, ?_⟩
    rintro _ ⟨types, rest, rfl, htypes, hne, hrest⟩
    refine ⟨⟨none, some ⟨⟨token, hk'⟩, ⟨types, hne, htypes⟩⟩⟩, rest, ?_, hrest⟩
    simp [SignaturePhrase.tokens, ClausePhrase.tokens]
  rw [beginSignature_of_ne options header signature parens hk hk'] at h
  obtain ⟨htidy, hasks⟩ := asks_endSignature h
  exact ⟨htidy, fun tokens htokens => ⟨⟨none, none⟩, _, rfl, hasks tokens htokens⟩⟩

theorem asks_nameDefinition {family : Family} {keyword place : Token}
    (h : nameDefinition family keyword place token w = .ok state w') :
    LeadsTo w (.definitionName family keyword place) token w' state := by
  by_cases hk : token.kind = .identifier
  · rw [nameDefinition_eq family keyword place ⟨token, hk⟩, bind_eq_ok] at h
    obtain ⟨_, w₁, -, h⟩ := h
    obtain ⟨rfl, rfl⟩ := pure_eq_ok.mp h
    cases family <;> exact ⟨trivial, fun tokens h => ⟨token, tokens, rfl, hk, h⟩⟩
  · rw [nameDefinition, if_pos hk] at h
    exact absurd h reject_ne_ok

end Header

/-! ## Runs -/

section Run

variable {options : ParseOptions} {w w' : Workspace} {state next : ParseState} {token : Token}

/-- **A step asks for no more than the state before it** does after the token. -/
theorem asks_of_step (htidy : state.Tidy w.store) (hstop : token.kind.isStop = false)
    (h : step options state token w = .ok next w') : LeadsTo w state token w' next := by
  -- In every case the phrase that the next state asks for is put behind the token.
  cases state with
  | definition =>
    rw [step, hstop] at h
    simp only [Bool.false_eq_true, if_false] at h
    split_ifs at h with hsection hdef
    · obtain ⟨rfl, rfl⟩ := pure_eq_ok.mp h
      refine ⟨trivial, ?_⟩
      rintro _ ⟨name, _, rfl, hname, subject, _, rfl, ds, rfl⟩
      exact ⟨⟨some (⟨token, hsection⟩, ⟨name, hname⟩), subject⟩ :: ds, by
        simp [DefinitionPhrase.tokens, placeTokens]⟩
    · obtain ⟨htidy', hasks⟩ := asks_beginDefinition h
      refine ⟨htidy', fun tokens htokens => ?_⟩
      obtain ⟨subject, _, heq, ds, rfl⟩ := hasks tokens htokens
      exact ⟨⟨none, subject⟩ :: ds, by simp [DefinitionPhrase.tokens, placeTokens, heq]⟩
    · exact absurd h failAt_ne_ok
  | sectionName =>
    rw [step] at h
    split_ifs at h with hk
    · obtain ⟨rfl, rfl⟩ := pure_eq_ok.mp h
      exact ⟨trivial, fun tokens h => ⟨token, tokens, rfl, hk, h⟩⟩
    · exact absurd h reject_ne_ok
  | definitionKeyword place => exact asks_beginDefinition h
  | definitionName family keyword place => exact asks_nameDefinition h
  | afterName header =>
    rw [step] at h
    split_ifs at h with hk
    · obtain ⟨rfl, rfl⟩ := pure_eq_ok.mp h
      refine ⟨trivial, ?_⟩
      rintro _ ⟨inner, _, rfl, closer, rest, rfl, hcloser, hrest⟩
      exact ⟨some (⟨token, hk⟩, inner, ⟨closer, hcloser⟩), rest, by simp [parensTokens], hrest⟩
    · obtain ⟨htidy', hasks⟩ := asks_beginSignature h
      exact ⟨htidy', fun tokens htokens => ⟨none, _, rfl, hasks tokens htokens⟩⟩
  | signature header signature parens => exact asks_beginSignature h
  | clauseTypes header signature parens clause keyword types => exact asks_clauseType h
  | capacity header =>
    rw [step, endMemory] at h
    split_ifs at h with hsize
    · obtain ⟨_, w₁, -, h⟩ := bind_eq_ok.mp h
      obtain ⟨rfl, rfl⟩ := pure_eq_ok.mp h
      exact ⟨trivial, fun tokens h => ⟨token, tokens, rfl, (isCapacity_iff token).mp hsize, h⟩⟩
    · exact absurd h reject_ne_ok
  | literal header =>
    rw [step, endString] at h
    split_ifs at h with hliteral
    · obtain ⟨_, w₁, -, h⟩ := bind_eq_ok.mp h
      obtain ⟨rfl, rfl⟩ := pure_eq_ok.mp h
      exact ⟨trivial, fun tokens h => ⟨token, tokens, rfl, hliteral, h⟩⟩
    · exact absurd h reject_ne_ok
  | block scope => exact asks_inScope htidy.1 htidy.2 h
  | castTypes scope keyword types => exact asks_castType htidy.1 htidy.2 h
  | assemblyLine scope keyword =>
    rw [step, endAssembly] at h
    split_ifs at h with hliteral
    · rw [addTo_bind, bind_eq_ok] at h
      obtain ⟨id, w₁, hadd, h⟩ := h
      obtain ⟨rfl, rfl⟩ := pure_eq_ok.mp h
      obtain ⟨htidy', hasks⟩ := asks_push htidy.1 htidy.2 rfl hadd
      exact ⟨htidy', fun tokens h => ⟨token, tokens, rfl, hliteral, hasks tokens h⟩⟩
    · exact absurd h reject_ne_ok
  | opening scope purpose =>
    rw [step] at h
    cases hk : token.kind with
    | opening bracket =>
      rw [hk] at h
      exact asks_openScope hk htidy.2 htidy.1 h
    | _ =>
      rw [hk] at h
      exact absurd h failAt_ne_ok
  | afterBranch scope branch => exact asks_afterBranch htidy.1 htidy.2 h

theorem kind_ne_of_stop (hstop : token.kind.isStop = true) {kind : TokenKind}
    (h : kind.isStop = false) : token.kind ≠ kind := by
  rintro rfl
  rw [hstop] at h
  cases h

/-- A scope does not end with the input. -/
theorem inScope_of_stop {scope : OpenScope} (hstop : token.kind.isStop = true) :
    inScope options scope token w ≠ .ok next w' := by
  rw [inScope, if_neg (kind_ne_of_stop hstop rfl), if_pos hstop]
  exact failAt_ne_ok

theorem endSignature_of_stop {header : Header} {signature : Signature} {parens : Bool}
    (hstop : token.kind.isStop = true) :
    endSignature options header signature parens token w ≠ .ok next w' := by
  rw [endSignature]
  split_ifs with hparens hk hk
  · exact absurd hk (kind_ne_of_stop hstop rfl)
  · exact reject_ne_ok
  · exact absurd hk (kind_ne_of_stop hstop rfl)
  · exact reject_ne_ok

theorem beginSignature_of_stop {header : Header} {signature : Signature} {parens : Bool}
    (hstop : token.kind.isStop = true) :
    beginSignature options header signature parens token w ≠ .ok next w' := by
  rw [beginSignature_of_ne _ _ _ _ (kind_ne_of_stop hstop rfl) (kind_ne_of_stop hstop rfl)]
  exact endSignature_of_stop hstop

theorem beginDefinition_of_stop {place : Option Token} (hstop : token.kind.isStop = true) :
    beginDefinition place token w ≠ .ok next w' := by
  have hnone : Family.ofKind? token.kind = none := by
    cases hk : token.kind <;> rw [hk] at hstop <;> first | rfl | cases hstop
  rw [beginDefinition, hnone]
  exact reject_ne_ok

/-- **The input ends only between definitions.** -/
theorem eq_definition_of_stop (hstop : token.kind.isStop = true)
    (h : step options state token w = .ok next w') : state = .definition := by
  have hne {kind : TokenKind} : kind.isStop = false → token.kind ≠ kind := kind_ne_of_stop hstop
  have htype : ¬ token.kind.isType := fun h => by
    cases hk : token.kind <;> simp_all [TokenKind.isType, TokenKind.isStop]
  have hliteral : ¬ token.kind.isStringLiteral := fun h => by
    cases hk : token.kind <;> simp_all [TokenKind.isStringLiteral, TokenKind.isStop]
  have hsize : ¬ isCapacity token := fun h => by
    rcases (isCapacity_iff token).mp h with ⟨_, hk⟩ | ⟨_, _, hk, -⟩ <;> exact hne rfl hk
  cases state with
  | definition => rfl
  | sectionName =>
    rw [step, if_neg (hne rfl)] at h
    exact absurd h reject_ne_ok
  | definitionKeyword place => exact absurd h (beginDefinition_of_stop hstop)
  | definitionName family keyword place =>
    rw [step, nameDefinition, if_pos (hne rfl)] at h
    exact absurd h reject_ne_ok
  | afterName header =>
    rw [step, if_neg (hne rfl)] at h
    exact absurd h (beginSignature_of_stop hstop)
  | signature header signature parens => exact absurd h (beginSignature_of_stop hstop)
  | clauseTypes header signature parens clause keyword types =>
    rw [step, clauseType, if_neg htype] at h
    split_ifs at h with hempty hreturns
    · exact absurd h reject_ne_ok
    · exact absurd hreturns.2 (hne rfl)
    · exact absurd h (endSignature_of_stop hstop)
  | capacity header =>
    rw [step, endMemory, if_neg hsize] at h
    exact absurd h reject_ne_ok
  | literal header =>
    rw [step, endString, if_neg hliteral] at h
    exact absurd h reject_ne_ok
  | block scope => exact absurd h (inScope_of_stop hstop)
  | castTypes scope keyword types =>
    rw [step, castType, if_neg htype] at h
    split_ifs at h
    · exact absurd h reject_ne_ok
    · obtain ⟨scope', w₁, -, h⟩ := bind_eq_ok.mp h
      exact absurd h (inScope_of_stop hstop)
  | assemblyLine scope keyword =>
    rw [step, endAssembly, if_neg hliteral] at h
    exact absurd h reject_ne_ok
  | opening scope purpose =>
    have hopens : token.kind.opens? = none := by
      cases hk : token.kind <;> rw [hk] at hstop <;> first | rfl | cases hstop
    rw [step, hopens] at h
    exact absurd h failAt_ne_ok
  | afterBranch scope branch =>
    rw [step, afterBranch_of_ne _ _ _ (hne rfl) (hne rfl)] at h
    obtain ⟨scope', w₁, -, h⟩ := bind_eq_ok.mp h
    exact absurd h (inScope_of_stop hstop)

/-- What a run from a state asks for: every token but the last is no stop, the last one is. -/
theorem asks_of_run {tokens : List Token} (htokens : ∀ t ∈ tokens, t.kind.isStop = false)
    {last : Token} (hlast : last.kind.isStop = true) (htidy : state.Tidy w.store)
    (h : run options state (tokens ++ [last]) w = .ok next w') : state.Asks w.store tokens := by
  induction tokens generalizing state w with
  | nil =>
    rw [List.nil_append, run_cons, bind_eq_ok] at h
    obtain ⟨q, w₁, hstep, -⟩ := h
    rw [eq_definition_of_stop hlast hstep]
    exact ⟨[], rfl⟩
  | cons token tokens ih =>
    rw [List.cons_append, run_cons, bind_eq_ok] at h
    obtain ⟨q, w₁, hstep, h⟩ := h
    obtain ⟨htidy', hasks⟩ := asks_of_step htidy (htokens token (.head _)) hstep
    exact hasks tokens (ih (fun t ht => htokens t (.tail _ ht)) htidy' h)

/-- **An accepted run has read definitions.** -/
theorem isUnit_of_run {tokens : List Token} (htokens : ∀ t ∈ tokens, t.kind.isStop = false)
    {last : Token} (hlast : last.kind.isStop = true)
    (h : run options .definition (tokens ++ [last]) w = .ok next w') : IsUnit tokens := by
  have htidy : ParseState.definition.Tidy w.store := trivial
  exact asks_of_run htokens hlast htidy h

end Run

/-! ## Texts -/

/-- **The text derives from definitions**: its tokens are theirs, and the end of input. -/
def Derives (source : List Char) (ds : List DefinitionPhrase) : Prop :=
  ∃ last, (Lexer.ofChars source).tokenize.1 = .ok (ds.flatMap DefinitionPhrase.tokens ++ [last]) ∧
    last.kind = .eof

theorem parseTokens_eq_ok {options : ParseOptions} {tokens : List Token} {error : Option LexError}
    {w w' : Workspace} {unit : List DefId} :
    parseTokens options tokens error w = .ok unit w' ↔
      error = none ∧ (∃ state, run options .definition tokens w = .ok state w') ∧
        unit = w'.symbols.map Prod.snd := by
  unfold parseTokens
  rw [bind_eq_ok]
  constructor
  · rintro ⟨state, w₁, hrun, h⟩
    cases error with
    | some e => cases h
    | none =>
      cases h
      exact ⟨rfl, ⟨state, hrun⟩, rfl⟩
  · rintro ⟨rfl, ⟨state, hrun⟩, rfl⟩
    exact ⟨state, w', hrun, rfl⟩

theorem parseLexer_eq_ok {options : ParseOptions} {store store' : Store} {lexer : Lexer}
    {unit : List DefId} :
    parseLexer options store lexer = ⟨.ok unit, store'⟩ ↔
      ∃ w', parseTokens options lexer.run.tokens lexer.run.error ⟨store, [], 0⟩ = .ok unit w' ∧
        store' = w'.store := by
  unfold parseLexer
  dsimp only
  cases parseTokens options lexer.run.tokens lexer.run.error ⟨store, [], 0⟩ with
  | ok unit' w' =>
    constructor
    · intro h
      cases h
      exact ⟨w', rfl, rfl⟩
    · rintro ⟨_, h, rfl⟩
      cases h
      rfl
  | error e w' =>
    constructor
    · intro h
      cases h
    · rintro ⟨_, h, -⟩
      cases h

theorem run_stop {options : ParseOptions} {last : Token} (h : last.kind.isStop = true)
    (w : Workspace) : run options .definition [last] w = .ok .definition w := by
  rw [run_cons, step, if_pos h]
  rfl

/-- **A text is accepted if it derives from definitions that can be built.** -/
theorem parseChars_eq_ok {options : ParseOptions} {store store' : Store} {source : List Char}
    {unit : List DefId} :
    parseChars options store source = ⟨.ok unit, store'⟩ ↔ ∃ ds w', Derives source ds ∧
      ds.forM (DefinitionPhrase.build options) ⟨store, [], 0⟩ = .ok () w' ∧
      unit = w'.symbols.map Prod.snd ∧ store' = w'.store := by
  have hwhole := Lexer.run_ofChars_whole source
  rw [parseChars, parseLexer_eq_ok]
  constructor
  · rintro ⟨w', h, rfl⟩
    obtain ⟨herror, ⟨state, hrun⟩, hunit⟩ := parseTokens_eq_ok.mp h
    obtain ⟨tokens, last, heq, hlast, htokens⟩ := hwhole.ends herror
    have hstop : last.kind.isStop = true := by rw [hlast]; rfl
    rw [heq] at hrun
    obtain ⟨ds, rfl⟩ := isUnit_of_run htokens hstop hrun
    rw [run_definitions, bind_eq_ok] at hrun
    obtain ⟨_, w₁, hbuild, hrun⟩ := hrun
    rw [run_stop hstop] at hrun
    cases hrun
    exact ⟨ds, w', ⟨last, tokenize_eq_ok.mpr ⟨herror, heq⟩, hlast⟩, hbuild, hunit, rfl⟩
  · rintro ⟨ds, w', ⟨last, htokenize, hlast⟩, hbuild, hunit, rfl⟩
    obtain ⟨herror, heq⟩ := tokenize_eq_ok.mp htokenize
    refine ⟨w', parseTokens_eq_ok.mpr ⟨herror, ⟨.definition, ?_⟩, hunit⟩, rfl⟩
    rw [heq, run_definitions, bind_eq_ok]
    exact ⟨(), w', hbuild, run_stop (by rw [hlast]; rfl) w'⟩

end StackCompiler
