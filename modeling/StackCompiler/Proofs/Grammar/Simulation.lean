import Mathlib.Tactic.SplitIfs
import StackCompiler.Proofs.Grammar.Build

/-!
# Parsing a phrase

Parsing the tokens of a phrase has the effect of building it. Casts and branches are finished by the
token after them, so the statements are about phrases with more tokens behind them.

* `run`: parsing from a state.
* `serve`, `closeScope_nested`: a nested scope that is complete serves its purpose.
* **`run_phrase`**: the inside of a function.
* **`run_definitions`**: definitions in a row.
-/

namespace StackCompiler

/-- Parsing goes on from a state. -/
def run (options : ParseOptions) (state : ParseState) (tokens : List Token) : ParseM ParseState :=
  tokens.foldlM (step options) state

theorem run_cons (options : ParseOptions) (state : ParseState) (token : Token) (rest : List Token) :
    run options state (token :: rest) =
      step options state token >>= fun next => run options next rest := rfl

/-! ## Open scopes -/

namespace OpenScope

/-- How many scopes are open, chains included. -/
def level (scope : OpenScope) : Nat := scope.interior.depth + scope.interior.chains.length

/-- Adds finished blocks in order. -/
def pushAll (scope : OpenScope) (ids : List BlockId) : OpenScope := ids.foldl push scope

theorem pushAll_append (scope : OpenScope) (first second : List BlockId) :
    scope.pushAll (first ++ second) = (scope.pushAll first).pushAll second :=
  List.foldl_append

theorem push_eq_modify {scope : OpenScope} (h : scope.interior.chains = []) (id : BlockId) :
    scope.push id =
      scope.modify fun interior => { interior with blocks := id :: interior.blocks } := by
  cases scope <;> simp only [interior] at h <;> simp only [push, modify, h]

theorem chains_push {scope : OpenScope} (h : scope.interior.chains = []) (id : BlockId) :
    (scope.push id).interior.chains = [] := by
  rw [push_eq_modify h]
  cases scope <;> exact h

theorem chains_pushAll {scope : OpenScope} (h : scope.interior.chains = []) (ids : List BlockId) :
    (scope.pushAll ids).interior.chains = [] := by
  induction ids generalizing scope with
  | nil => exact h
  | cons id ids ih => exact ih (chains_push h id)

theorem level_push (scope : OpenScope) (id : BlockId) : (scope.push id).level = scope.level := by
  cases scope <;> simp only [push, modify, level, interior] <;> split <;> simp_all

theorem level_pushAll (scope : OpenScope) (ids : List BlockId) :
    (scope.pushAll ids).level = scope.level := by
  induction ids generalizing scope with
  | nil => rfl
  | cons id ids ih => exact (ih _).trans (level_push scope id)

theorem pushAll_eq_modify {scope : OpenScope} (h : scope.interior.chains = []) (ids : List BlockId) :
    scope.pushAll ids =
      scope.modify fun interior => { interior with blocks := ids.reverse ++ interior.blocks } := by
  induction ids generalizing scope with
  | nil => cases scope <;> rfl
  | cons id ids ih =>
    rw [show scope.pushAll (id :: ids) = (scope.push id).pushAll ids from rfl, ih (chains_push h id),
      push_eq_modify h]
    cases scope <;> simp [modify]

end OpenScope

/-- **A nested scope that is complete serves its purpose.** -/
def serve (outer : OpenScope) (id : BlockId) : Purpose → ParseM ParseState
  | .plain => return .block (outer.push id)
  | .branchCondition keyword index => return .opening outer (.branchBody keyword index id)
  | .branchBody keyword index condition => do
    let branch ← addBlock (.branch keyword.location condition id none index)
    return .afterBranch (outer.push branch) branch
  | .alternative keyword index branch => do
    let alternative ← addBlock (.alternative keyword.location id index)
    joinAlternative branch alternative
    return .block (← settle (outer.push alternative))
  | .loopCondition keyword index => return .opening outer (.loopBody keyword index id)
  | .loopBody keyword index condition => do
    let loop ← addBlock (.loop keyword.location condition id index)
    return .block (outer.push loop)

theorem closeScope_nested (interior : Interior) (purpose : Purpose) (outer : OpenScope) :
    closeScope (.nested interior purpose outer) =
      addBlock (.scope interior.bracket interior.opener.location interior.blocks.reverse) >>=
        fun id => serve outer id purpose := by
  cases purpose <;> rfl

theorem openScope_eq (options : ParseOptions) (scope : OpenScope) (purpose : Purpose)
    (bracket : Bracket) (opener : Token) :
    openScope options scope purpose bracket opener =
      checkDepth options opener (scope.level + 1) >>= fun _ =>
        pure (.block (.nested ⟨bracket, opener, scope.level + 1, [], []⟩ purpose scope)) := by
  rw [checkDepth, show scope.level + 1 = scope.innerDepth from rfl, openScope]
  split_ifs <;> rfl

theorem addTo_bind {α : Type} (scope : OpenScope) (block : Block) (f : OpenScope → ParseM α) :
    addTo scope block >>= f = addBlock block >>= fun id => f (scope.push id) := by
  simp only [addTo, bind_assoc, pure_bind]

/-! ## Tokens inside a scope -/

section Tokens

variable (options : ParseOptions) (scope : OpenScope)

/-- A token that begins a block and neither closes nor ends anything. -/
theorem inScope_of_begins {token : Token} (hclosing : token.kind.isClosing = false)
    (hstop : token.kind.isStop = false) (hdef : token.kind.isDefinitionKeyword = false) :
    inScope options scope token = beginBlock options scope token := by
  have hne : token.kind ≠ .closing scope.interior.bracket := fun h => by
    rw [h] at hclosing
    cases hclosing
  simp only [inScope, if_neg hne, hclosing, hstop, hdef, Bool.false_eq_true, if_false]

theorem inScope_of_expression (token : { token : Token // token.kind.isExpression }) :
    inScope options scope token.1 =
      addBlock (.expression token.1) >>= fun id => pure (.block (scope.push id)) := by
  obtain ⟨token, h⟩ := token
  cases hk : token.kind <;> rw [hk] at h <;> cases h <;>
    rw [inScope_of_begins options scope (by rw [hk]; rfl) (by rw [hk]; rfl) (by rw [hk]; rfl)] <;>
    simp only [beginBlock, hk, addTo_bind]

theorem inScope_of_identifier (name : Word .identifier) :
    inScope options scope name.1 =
      addReference name.1 >>= fun id => pure (.block (scope.push id)) := by
  obtain ⟨token, hk⟩ := name
  rw [inScope_of_begins options scope (by rw [hk]; rfl) (by rw [hk]; rfl) (by rw [hk]; rfl)]
  simp only [beginBlock, hk, reference, addReference, bind_assoc]
  refine bind_congr fun w => ?_
  cases w.symbols.lookup token.text with
  | none => rfl
  | some target => simp only [bind_assoc, addTo_bind]

theorem inScope_of_opening {bracket : Bracket} (opener : Word (.opening bracket)) :
    inScope options scope opener.1 = openScope options scope .plain bracket opener.1 := by
  obtain ⟨token, hk⟩ := opener
  rw [inScope_of_begins options scope (by rw [hk]; rfl) (by rw [hk]; rfl) (by rw [hk]; rfl)]
  simp only [beginBlock, hk]

theorem inScope_of_closing {token : Token} (h : token.kind = .closing scope.interior.bracket) :
    inScope options scope token = closeScope scope := by
  rw [inScope, if_pos h]

/-- A keyword that begins a block. -/
theorem inScope_of_keyword {keyword : Keyword} (word : Word (.keyword keyword))
    (h : (TokenKind.keyword keyword).isDefinitionKeyword = false) :
    inScope options scope word.1 = beginBlock options scope word.1 := by
  obtain ⟨token, hk⟩ := word
  exact inScope_of_begins options scope (by rw [hk]; rfl) (by rw [hk]; rfl) (by rw [hk]; exact h)

end Tokens

/-! ## Blocks -/

/-- What can stand after a block: anything but a type or an alternative. -/
def Follows : List Token → Prop
  | [] => False
  | token :: _ => token.kind.isType = false ∧ token.kind ≠ .keyword .otherwise ∧
      token.kind ≠ .keyword .elseIf

theorem follows_closing {bracket : Bracket} (closer : Word (.closing bracket)) (rest : List Token) :
    Follows (closer.1 :: rest) := by
  obtain ⟨token, hk⟩ := closer
  simp [Follows, hk, TokenKind.isType]

/-- The first token of a block can stand after a block. -/
theorem Phrase.follows {n : Nonterminal} (p : Phrase n) (rest : List Token) :
    match n with
    | .block | .scope => Follows (p.tokens ++ rest)
    | .blocks => Follows rest → Follows (p.tokens ++ rest)
    | .chain => True := by
  induction p generalizing rest with
  | expression token =>
    obtain ⟨token, h⟩ := token
    simp only [Phrase.tokens, List.cons_append, Follows]
    cases hk : token.kind <;> rw [hk] at h <;> simp_all [TokenKind.isExpression, TokenKind.isType]
  | reference name | call name keyword => simp [Phrase.tokens, Follows, name.2, TokenKind.isType]
  | cast keyword | branch keyword | loop keyword | assembly keyword =>
    simp [Phrase.tokens, Follows, keyword.2, TokenKind.isType]
  | nested scope ih => exact ih rest
  | nil => exact id
  | cons first more ih _ =>
    intro _
    simp only [Phrase.tokens, List.append_assoc]
    exact ih _
  | enclosed bracket opener =>
    simp [Phrase.tokens, Follows, opener.2, TokenKind.isType]
  | stop | otherwise | elseIf => trivial

theorem run_castTypes (options : ParseOptions) (scope : OpenScope) (keyword : Token)
    (before types : List Token) (htypes : ∀ t ∈ types, t.kind.isType) (hne : before ++ types ≠ [])
    {rest : List Token} (hrest : Follows rest) :
    run options (.castTypes scope keyword before) (types ++ rest) =
      addBlock (.cast keyword.location (before ++ types)) >>= fun id =>
        run options (.block (scope.push id)) rest := by
  induction types generalizing before with
  | nil =>
    cases rest with
    | nil => exact hrest.elim
    | cons token rest =>
      have hne : before.isEmpty = false := by simpa using hne
      simp only [List.nil_append, run_cons, step, castType, hrest.1, hne, Bool.false_eq_true,
        if_false, addTo_bind, bind_assoc, List.append_nil]
  | cons type types ih =>
    have htype := htypes type List.mem_cons_self
    simp only [List.cons_append, run_cons, step, castType, htype, if_true, pure_bind]
    rw [ih (before ++ [type]) (fun t ht => htypes t (List.mem_cons_of_mem _ ht)) (by simp)]
    simp

theorem OpenScope.pushAll_openChain (scope : OpenScope) (chain : Chain) (ids : List BlockId) :
    (scope.openChain chain).pushAll ids =
      scope.openChain { chain with blocks := ids.reverse ++ chain.blocks } := by
  induction ids generalizing chain with
  | nil => rfl
  | cons id ids ih =>
    have hpush : (scope.openChain chain).push id =
        scope.openChain { chain with blocks := id :: chain.blocks } := by
      cases scope <;> rfl
    rw [show (scope.openChain chain).pushAll (id :: ids) =
      ((scope.openChain chain).push id).pushAll ids from rfl, hpush, ih]
    simp

/-- **The innermost chain closes first**, and the chain around it takes the alternative. -/
theorem settle_openChain (scope : OpenScope) (chain : Chain) :
    settle (scope.openChain chain) = (do
      let body ← addBlock (.scope .brace chain.location chain.blocks.reverse)
      let alternative ← addBlock (.alternative chain.location body chain.index)
      joinAlternative chain.branch alternative
      settle (scope.push alternative)) := by
  have hchains : (scope.openChain chain).interior.chains = chain :: scope.interior.chains := by
    cases scope <;> rfl
  simp only [settle, hchains, closeChains, List.nil_append, bind_assoc]
  refine bind_congr fun body => bind_congr fun alternative => bind_congr fun _ => ?_
  -- the alternative goes into the next chain, or into the scope itself
  cases scope with
  | function interior block | nested interior purpose outer =>
    obtain ⟨bracket, opener, depth, blocks, chains⟩ := interior
    cases chains <;> rfl

/-- Anything but an alternative ends a branch. -/
theorem afterBranch_of_ne (options : ParseOptions) (scope : OpenScope) (branch : BlockId)
    {token : Token} (helse : token.kind ≠ .keyword .otherwise)
    (helif : token.kind ≠ .keyword .elseIf) :
    afterBranch options scope branch token =
      settle scope >>= fun scope => inScope options scope token := by
  unfold afterBranch
  split
  · next h => exact absurd h helse
  · next h => exact absurd h helif
  · rfl

/-- Parsing the tokens of a phrase, by nonterminal. -/
def Simulated (options : ParseOptions) : (n : Nonterminal) → Phrase n → Prop
  | .block, p | .blocks, p => ∀ scope rest, scope.interior.chains = [] → Follows rest →
      run options (.block scope) (p.tokens ++ rest) =
        p.build options scope.level >>= fun ids => run options (.block (scope.pushAll ids)) rest
  | .scope, p => ∀ scope purpose rest,
      run options (.opening scope purpose) (p.tokens ++ rest) =
        p.build options scope.level >>= fun id =>
          serve scope id purpose >>= fun state => run options state rest
  | .chain, p => ∀ scope branch rest, Follows rest →
      run options (.afterBranch scope branch) (p.tokens ++ rest) =
        p.build options scope.level >>= fun alternatives =>
          joinChain branch alternatives >>= fun _ =>
            settle (scope.pushAll alternatives) >>= fun scope => run options (.block scope) rest

section Simulation

variable {options : ParseOptions}

theorem simulated_enclosed {bracket : Bracket} (opener : Word (.opening bracket))
    {inside : Phrase .blocks} (closer : Word (.closing bracket))
    (ih : Simulated options .blocks inside) :
    Simulated options .scope (.enclosed bracket opener inside closer) := by
  intro scope purpose rest
  have hopens : opener.1.kind.opens? = some bracket := by rw [opener.2]; rfl
  simp only [Phrase.tokens, List.cons_append, List.append_assoc, List.nil_append, run_cons, step,
    hopens, openScope_eq, bind_assoc, pure_bind, Phrase.build]
  refine bind_congr fun _ => ?_
  rw [ih _ _ rfl (follows_closing closer rest)]
  refine bind_congr fun ids => ?_
  rw [OpenScope.pushAll_eq_modify rfl, run_cons, step,
    inScope_of_closing _ _ closer.2]
  simp only [OpenScope.modify, closeScope_nested, bind_assoc, List.append_nil, List.reverse_reverse]

/-- **A branch from its condition on.** -/
theorem run_branch (keyword : Token) (index : Nat) {condition body : Phrase .scope}
    {chain : Phrase .chain} (hcondition : Simulated options .scope condition)
    (hbody : Simulated options .scope body) (hchain : Simulated options .chain chain)
    (scope : OpenScope) {rest : List Token} (hrest : Follows rest) :
    run options (.opening scope (.branchCondition keyword index))
        (condition.tokens ++ (body.tokens ++ (chain.tokens ++ rest))) =
      addBranch keyword index (condition.build options scope.level)
          (body.build options scope.level) (chain.build options scope.level) >>= fun ids =>
        settle (scope.pushAll ids) >>= fun scope => run options (.block scope) rest := by
  rw [hcondition]
  simp only [serve, pure_bind, addBranch, bind_assoc]
  refine bind_congr fun c => ?_
  rw [hbody]
  simp only [serve, bind_assoc, pure_bind]
  refine bind_congr fun b => bind_congr fun branch => ?_
  rw [hchain _ _ _ hrest, OpenScope.level_push]
  rfl

theorem settle_of_chains {scope : OpenScope} (h : scope.interior.chains = []) :
    settle scope = pure scope := by
  simp only [settle, h, closeChains, pure_bind, List.nil_append]
  cases scope with
  | function interior block | nested interior purpose outer =>
    obtain ⟨bracket, opener, depth, blocks, chains⟩ := interior
    obtain rfl : chains = [] := h
    rfl

theorem simulated_call (name : Word .identifier) (keyword : Word (.keyword .call)) :
    Simulated options .block (.call name keyword) := by
  intro scope rest hscope _
  simp only [Phrase.tokens, List.cons_append, List.nil_append, run_cons, step,
    inScope_of_identifier, inScope_of_keyword options _ keyword rfl, beginBlock, keyword.2,
    bind_assoc, pure_bind, Phrase.build, addCall]
  refine bind_congr fun callee => ?_
  have hblocks : (scope.push callee).interior.blocks = callee :: scope.interior.blocks := by
    rw [OpenScope.push_eq_modify hscope]
    cases scope <;> rfl
  have hback : ((scope.push callee).modify fun interior =>
      { interior with blocks := scope.interior.blocks }) = scope := by
    rw [OpenScope.push_eq_modify hscope]
    cases scope <;> rfl
  simp only [call, hblocks, bind_assoc, hback]
  refine bind_congr fun workspace => ?_
  split_ifs
  · simp only [addTo_bind, bind_assoc, pure_bind]
    rfl
  · rfl

/-- **Parsing the tokens of a phrase builds it.** -/
theorem run_phrase {n : Nonterminal} (p : Phrase n) : Simulated options n p := by
  -- Chains are the hard case: the parser closes them from the inside when the branch is over, while
  -- the phrase closes each one where it ends.
  induction p with
  | expression token =>
    intro scope rest _ _
    simp only [Phrase.tokens, List.cons_append, List.nil_append, run_cons, step,
      inScope_of_expression, Phrase.build, bind_assoc, pure_bind]
    rfl
  | reference name =>
    intro scope rest _ _
    simp only [Phrase.tokens, List.cons_append, List.nil_append, run_cons, step,
      inScope_of_identifier, Phrase.build, bind_assoc, pure_bind]
    rfl
  | call name keyword => exact simulated_call name keyword
  | cast keyword types =>
    intro scope rest _ hrest
    simp only [Phrase.tokens, List.cons_append, run_cons, step,
      inScope_of_keyword options _ keyword rfl, beginBlock, keyword.2, pure_bind, Phrase.build,
      bind_assoc]
    rw [run_castTypes options scope keyword.1 [] types.1 types.2.2 types.2.1 hrest]
    rfl
  | nested inner ih =>
    intro scope rest _ _
    have hfirst : run options (.block scope) (inner.tokens ++ rest) =
        run options (.opening scope .plain) (inner.tokens ++ rest) := by
      cases inner with
      | enclosed bracket opener inside closer =>
        have hopens : opener.1.kind.opens? = some bracket := by rw [opener.2]; rfl
        simp only [Phrase.tokens, List.cons_append, run_cons, step, inScope_of_opening, hopens]
    rw [show (Phrase.nested inner).tokens = inner.tokens from rfl, hfirst, ih]
    simp only [serve, Phrase.build, bind_assoc, pure_bind]
    rfl
  | branch keyword condition body chain hcondition hbody hchain =>
    intro scope rest hscope hrest
    simp only [Phrase.tokens, List.cons_append, List.append_assoc, run_cons, step,
      inScope_of_keyword options _ keyword rfl, beginBlock, keyword.2, bind_assoc, pure_bind,
      Phrase.build]
    refine bind_congr fun index => ?_
    rw [run_branch keyword.1 index hcondition hbody hchain scope hrest]
    refine bind_congr fun ids => ?_
    rw [settle_of_chains (OpenScope.chains_pushAll hscope ids), pure_bind]
  | loop keyword condition body hcondition hbody =>
    intro scope rest _ _
    simp only [Phrase.tokens, List.cons_append, List.append_assoc, run_cons, step,
      inScope_of_keyword options _ keyword rfl, beginBlock, keyword.2, bind_assoc, pure_bind,
      Phrase.build]
    refine bind_congr fun index => ?_
    rw [hcondition]
    refine bind_congr fun c => ?_
    simp only [serve, pure_bind]
    rw [hbody]
    simp only [serve, bind_assoc, pure_bind]
    rfl
  | assembly keyword literal =>
    intro scope rest _ _
    simp only [Phrase.tokens, List.cons_append, List.nil_append, run_cons, step,
      inScope_of_keyword options _ keyword rfl, beginBlock, keyword.2, pure_bind, endAssembly,
      literal.2, if_true, addTo_bind, bind_assoc, Phrase.build]
    rfl
  | nil =>
    intro scope rest _ _
    simp only [Phrase.tokens, List.nil_append, Phrase.build, pure_bind]
    rfl
  | cons first more hfirst hmore =>
    intro scope rest hscope hrest
    rw [show (Phrase.cons first more).tokens = first.tokens ++ more.tokens from rfl,
      List.append_assoc, hfirst _ _ hscope (more.follows rest hrest)]
    simp only [Phrase.build, bind_assoc, pure_bind]
    refine bind_congr fun ids => ?_
    rw [hmore _ _ (OpenScope.chains_pushAll hscope ids) hrest, OpenScope.level_pushAll]
    simp only [OpenScope.pushAll_append]
  | enclosed bracket opener inside closer ih => exact simulated_enclosed opener closer ih
  | stop =>
    intro scope branch rest hrest
    cases rest with
    | nil => exact hrest.elim
    | cons token rest =>
      simp only [Phrase.tokens, List.nil_append, run_cons, step,
        afterBranch_of_ne options scope branch hrest.2.1 hrest.2.2, Phrase.build, joinChain,
        pure_bind, bind_assoc]
      rfl
  | otherwise keyword body ih =>
    intro scope branch rest _
    simp only [Phrase.tokens, List.cons_append, run_cons, step, afterBranch, keyword.2, bind_assoc,
      pure_bind, Phrase.build]
    refine bind_congr fun index => ?_
    rw [ih]
    simp only [serve, bind_assoc, pure_bind, joinChain]
    rfl
  | elseIf keyword condition body chain hcondition hbody hchain =>
    intro scope branch rest hrest
    simp only [Phrase.tokens, List.cons_append, List.append_assoc, run_cons, step, afterBranch,
      keyword.2, bind_assoc, pure_bind, Phrase.build]
    refine bind_congr fun index => bind_congr fun inner => ?_
    have hlevel : (scope.openChain ⟨keyword.1.location, index, branch, []⟩).level =
        scope.level + 1 := by
      cases scope <;> simp [OpenScope.level, OpenScope.openChain, OpenScope.modify,
        OpenScope.interior, Nat.add_assoc]
    rw [run_branch keyword.1 inner hcondition hbody hchain _ hrest, hlevel]
    refine bind_congr fun ids => ?_
    rw [OpenScope.pushAll_openChain, settle_openChain]
    simp only [List.append_nil, List.reverse_reverse, bind_assoc, joinChain]
    rfl

end Simulation

/-! ## Signatures -/

section Signatures

variable (options : ParseOptions) (header : Header)

theorem run_clauseTypes (signature : Signature) (parens : Bool) (clause : Clause) (keyword : Token)
    (before types : List Token) (htypes : ∀ t ∈ types, t.kind.isType) (token : Token)
    (rest : List Token) :
    run options (.clauseTypes header signature parens clause keyword before)
        (types ++ token :: rest) =
      clauseType options header signature parens clause keyword (before ++ types) token >>=
        fun state => run options state rest := by
  induction types generalizing before with
  | nil => rw [List.nil_append, List.append_nil, run_cons, step]
  | cons type types ih =>
    have htype := htypes type List.mem_cons_self
    simp only [List.cons_append, run_cons, step, clauseType, htype, if_true, pure_bind]
    rw [ih (before ++ [type]) fun t ht => htypes t (List.mem_cons_of_mem _ ht)]
    simp only [clauseType, List.append_assoc, List.cons_append, List.nil_append]

/-- What stands behind a signature: a bracket. -/
def EndsSignature (token : Token) : Prop :=
  token.kind = .closing .paren ∨ token.kind = .opening .brace

theorem clauseType_of_ends (signature : Signature) (parens : Bool) (clause : Clause)
    (keyword : Token) (types : TypeRun) {token : Token} (h : EndsSignature token) :
    clauseType options header signature parens clause keyword types.1 token =
      endSignature options header (signature.add clause types.1) parens token := by
  have hne : types.1.isEmpty = false := by simpa using types.2.1
  have htype : token.kind.isType = false := by rcases h with h | h <;> rw [h] <;> rfl
  have hret : ¬ (clause = .requires ∧ token.kind = .keyword .returns) := by
    rcases h with h | h <;> simp [h]
  simp only [clauseType, htype, hne, Bool.false_eq_true, if_false, if_neg hret]

/-- A clause that is the last of its signature. -/
theorem run_lastClause {word : Keyword} (clause : ClausePhrase word) (kind : Clause)
    (signature : Signature) (parens : Bool) {token : Token} (h : EndsSignature token)
    (rest : List Token) :
    run options (.clauseTypes header signature parens kind clause.keyword.1 [])
        (clause.types.1 ++ token :: rest) =
      endSignature options header (signature.add kind clause.types.1) parens token >>=
        fun state => run options state rest := by
  rw [run_clauseTypes options header signature parens kind clause.keyword.1 [] clause.types.1
    clause.types.2.2, List.nil_append, clauseType_of_ends options header _ _ _ _ _ h]

/-- Anything but a clause ends a signature. -/
theorem beginSignature_of_ne (signature : Signature) (parens : Bool) {token : Token}
    (hrequires : token.kind ≠ .keyword .requires) (hreturns : token.kind ≠ .keyword .returns) :
    beginSignature options header signature parens token =
      endSignature options header signature parens token := by
  unfold beginSignature
  split
  · next h => exact absurd h hrequires
  · next h => exact absurd h hreturns
  · rfl

/-- **A signature and what ends it.** -/
theorem run_signature (s : SignaturePhrase) (signature : Signature) (parens : Bool) {token : Token}
    (h : EndsSignature token) (rest : List Token) :
    run options (.signature header signature parens) (s.tokens ++ token :: rest) =
      endSignature options header (s.addTo signature) parens token >>=
        fun state => run options state rest := by
  obtain ⟨requires, returns⟩ := s
  cases requires with
  | none =>
    cases returns with
    | none =>
      have hbegin : beginSignature options header signature parens token =
          endSignature options header signature parens token := by
        rcases h with h | h <;>
          exact beginSignature_of_ne options header _ _ (by rw [h]; simp) (by rw [h]; simp)
      simp only [SignaturePhrase.tokens, Option.elim_none, List.nil_append, run_cons, step, hbegin,
        SignaturePhrase.addTo]
    | some clause =>
      simp only [SignaturePhrase.tokens, Option.elim_none, Option.elim_some, List.nil_append,
        ClausePhrase.tokens, List.cons_append, run_cons, step, beginSignature, clause.keyword.2,
        pure_bind, SignaturePhrase.addTo]
      rw [run_lastClause options header clause .returns signature parens h]
  | some first =>
    have hfirst : ∀ (after : List Token), run options (.signature header signature parens)
        (first.tokens ++ after) = run options (.clauseTypes header signature parens .requires
          first.keyword.1 []) (first.types.1 ++ after) := by
      intro after
      simp only [ClausePhrase.tokens, List.cons_append, run_cons, step, beginSignature,
        first.keyword.2, pure_bind]
    simp only [SignaturePhrase.tokens, Option.elim_some, List.append_assoc, hfirst,
      SignaturePhrase.addTo]
    cases returns with
    | none =>
      rw [Option.elim_none, List.nil_append, run_lastClause options header first .requires _ _ h,
        Option.elim_none]
    | some second =>
      have hne : first.types.1.isEmpty = false := by simpa using first.types.2.1
      simp only [Option.elim_some, ClausePhrase.tokens, List.cons_append]
      rw [run_clauseTypes options header signature parens .requires first.keyword.1 [] first.types.1
        first.types.2.2]
      simp only [List.nil_append, clauseType, second.keyword.2, TokenKind.isType, hne,
        Bool.false_eq_true, if_false, and_self, if_true, pure_bind]
      rw [run_lastClause options header second .returns _ parens h]

/-- **The head of a function**: its name has been read, and its body opens. -/
theorem run_functionHead (f : FunctionPhrase) (rest : List Token) :
    run options (.afterName header)
        (parensTokens f.parens ++ (f.signature.tokens ++ f.opener.1 :: rest)) =
      openFunction options header f.types f.opener.1 >>= fun state => run options state rest := by
  have hopener : EndsSignature f.opener.1 := .inr f.opener.2
  have hbody : ∀ signature, endSignature options header signature false f.opener.1 =
      openFunction options header signature f.opener.1 := by
    intro signature
    simp only [endSignature, Bool.false_eq_true, if_false, f.opener.2, if_true]
  obtain ⟨keyword, name, parens, signature, opener, inside, closer⟩ := f
  cases parens with
  | none =>
    -- without a parenthesis the second signature begins at once
    have hskip : run options (.afterName header) (signature.tokens ++ opener.1 :: rest) =
        run options (.signature header {} false) (signature.tokens ++ opener.1 :: rest) := by
      have hstep : ∀ token : Token, token.kind ≠ .opening .paren →
          step options (.afterName header) token =
            step options (.signature header {} false) token := by
        intro token h
        simp only [step, if_neg h]
      obtain ⟨requires, returns⟩ := signature
      cases requires with
      | some clause =>
        simp only [SignaturePhrase.tokens, Option.elim_some, ClausePhrase.tokens, List.cons_append,
          run_cons, hstep clause.keyword.1 (by simp [clause.keyword.2])]
      | none =>
        cases returns with
        | some clause =>
          simp only [SignaturePhrase.tokens, Option.elim_some, Option.elim_none, List.nil_append,
            ClausePhrase.tokens, List.cons_append, run_cons,
            hstep clause.keyword.1 (by simp [clause.keyword.2])]
        | none =>
          simp only [SignaturePhrase.tokens, Option.elim_none, List.nil_append, run_cons,
            hstep opener.1 (by simp [opener.2])]
    rw [parensTokens, List.nil_append, hskip, run_signature options header _ _ _ hopener, hbody]
    rfl
  | some p =>
    obtain ⟨first, inner, last⟩ := p
    have hclose : ∀ signature, endSignature options header signature true last.1 =
        pure (.signature header signature false) := by
      intro signature
      simp only [endSignature, if_true, last.2]
    simp only [parensTokens, List.cons_append, List.append_assoc, List.nil_append, run_cons, step,
      first.2, if_true, pure_bind]
    rw [run_signature options header _ _ _ (.inl last.2), hclose, pure_bind,
      run_signature options header _ _ _ hopener, hbody]
    rfl

theorem openFunction_eq (signature : Signature) (opener : Token) :
    openFunction options header signature opener =
      beginFunction options header signature opener >>= fun body =>
        pure (.block (.function ⟨.brace, opener, 1, [], []⟩ body)) := by
  simp only [openFunction, beginFunction, bind_assoc, pure_bind, checkDepth]
  refine bind_congr fun body => bind_congr fun _ => ?_
  split_ifs <;> rfl

end Signatures

/-! ## Definitions -/

section Definitions

variable (options : ParseOptions)

theorem run_place (d : DefinitionPhrase) (rest : List Token) :
    run options .definition (placeTokens d.place ++ d.subject.keyword :: rest) =
      run options (.definitionName d.subject.family d.subject.keyword d.placeToken) rest := by
  have hfamily : Family.ofKind? d.subject.keyword.kind = some d.subject.family := by
    cases d.subject with
    | function f => simp [SubjectPhrase.keyword, f.keyword.2, Family.ofKind?, SubjectPhrase.family]
    | memory m => simp [SubjectPhrase.keyword, m.keyword.2, Family.ofKind?, SubjectPhrase.family]
    | string s => simp [SubjectPhrase.keyword, s.keyword.2, Family.ofKind?, SubjectPhrase.family]
  have hkind : d.subject.keyword.kind.isStop = false ∧
      d.subject.keyword.kind ≠ .keyword .inSection ∧
      d.subject.keyword.kind.isDefinitionKeyword = true := by
    cases d.subject with
    | function f => simp [SubjectPhrase.keyword, f.keyword.2, TokenKind.isStop,
        TokenKind.isDefinitionKeyword]
    | memory m => simp [SubjectPhrase.keyword, m.keyword.2, TokenKind.isStop,
        TokenKind.isDefinitionKeyword]
    | string s => simp [SubjectPhrase.keyword, s.keyword.2, TokenKind.isStop,
        TokenKind.isDefinitionKeyword]
  obtain ⟨place, subject⟩ := d
  cases place with
  | none =>
    simp only [placeTokens, List.nil_append, run_cons, step, hkind.1, hkind.2.1, hkind.2.2,
      Bool.false_eq_true, if_false, if_true, beginDefinition, hfamily, pure_bind]
    rfl
  | some p =>
    obtain ⟨keyword, name⟩ := p
    simp only [placeTokens, List.cons_append, List.nil_append, run_cons, step, keyword.2, name.2,
      TokenKind.isStop, Bool.false_eq_true, if_false, if_true, beginDefinition, hfamily, pure_bind]
    rfl

theorem nameDefinition_eq (family : Family) (keyword place : Token) (name : Word .identifier) :
    nameDefinition family keyword place name.1 =
      checkName name.1 >>= fun _ => pure (match family with
        | .function => .afterName ⟨keyword, name.1, place⟩
        | .memory => .capacity ⟨keyword, name.1, place⟩
        | .string => .literal ⟨keyword, name.1, place⟩) := by
  simp only [nameDefinition, checkName, name.2, ne_eq, not_true_eq_false, if_false, bind_assoc]
  refine bind_congr fun w => ?_
  split_ifs <;> rfl

theorem isCapacity_iff (token : Token) : isCapacity token = true ↔ IsSize token := by
  rw [isCapacity, Bool.or_eq_true, Bool.and_eq_true, IsSize]
  refine or_congr ?_ ⟨?_, ?_⟩
  · cases hk : token.kind with
    | number type => cases type <;> simp [TokenKind.isUnsignedLiteral]
    | _ => simp [TokenKind.isUnsignedLiteral]
  · rintro ⟨hsigned, hvalue⟩
    cases hk : token.kind with
    | number type =>
      cases type with
      | signed width =>
        cases hv : token.value with
        | int n => exact ⟨width, n, rfl, rfl, by simpa [Token.int?, hv] using hvalue⟩
        | _ => simp [Token.int?, hv] at hvalue
      | _ => simp [hk, TokenKind.isSignedLiteral] at hsigned
    | _ => simp [hk, TokenKind.isSignedLiteral] at hsigned
  · rintro ⟨width, n, hk, hv, hn⟩
    simp [hk, Token.int?, hv, hn, TokenKind.isSignedLiteral]

/-- **Parsing the tokens of a definition builds it.** -/
theorem run_definition (d : DefinitionPhrase) (rest : List Token) :
    run options .definition (d.tokens ++ rest) =
      d.build options >>= fun _ => run options .definition rest := by
  have hplace := run_place options d
  obtain ⟨place, subject⟩ := d
  simp only [DefinitionPhrase.tokens, DefinitionPhrase.build, List.append_assoc] at hplace ⊢
  cases subject with
  | function f =>
    simp only [SubjectPhrase.tokens, SubjectPhrase.keyword, List.cons_append, List.append_assoc,
      List.nil_append] at hplace ⊢
    rw [hplace, run_cons, step, nameDefinition_eq]
    simp only [SubjectPhrase.family, bind_assoc, pure_bind, SubjectPhrase.name]
    refine bind_congr fun _ => ?_
    rw [run_functionHead, openFunction_eq]
    simp only [bind_assoc, pure_bind, SubjectPhrase.build]
    refine bind_congr fun body => ?_
    rw [run_phrase f.inside _ _ rfl (follows_closing f.closer rest)]
    refine bind_congr fun ids => ?_
    rw [OpenScope.pushAll_eq_modify rfl, run_cons, step, inScope_of_closing _ _ f.closer.2]
    simp only [OpenScope.modify, closeScope, List.append_nil, List.reverse_reverse, bind_assoc,
      pure_bind]
  | memory m =>
    have hsize : isCapacity m.capacity.1 = true := (isCapacity_iff _).mpr m.capacity.2
    simp only [SubjectPhrase.tokens, SubjectPhrase.keyword, List.cons_append,
      List.nil_append] at hplace ⊢
    rw [hplace, run_cons, step, nameDefinition_eq]
    simp only [SubjectPhrase.family, bind_assoc, pure_bind, SubjectPhrase.name, run_cons, step,
      endMemory, hsize, if_true]
    rfl
  | string s =>
    simp only [SubjectPhrase.tokens, SubjectPhrase.keyword, List.cons_append,
      List.nil_append] at hplace ⊢
    rw [hplace, run_cons, step, nameDefinition_eq]
    simp only [SubjectPhrase.family, bind_assoc, pure_bind, SubjectPhrase.name, run_cons, step,
      endString, s.literal.2, if_true]
    rfl

/-- **Parsing the tokens of definitions in a row builds them one after the other.** -/
theorem run_definitions (ds : List DefinitionPhrase) (rest : List Token) :
    run options .definition (ds.flatMap DefinitionPhrase.tokens ++ rest) =
      ds.forM (DefinitionPhrase.build options) >>= fun _ => run options .definition rest := by
  induction ds with
  | nil => rfl
  | cons d ds ih =>
    rw [List.flatMap_cons, List.append_assoc, run_definition,
      show (d :: ds).forM (DefinitionPhrase.build options) =
        d.build options >>= fun _ => ds.forM (DefinitionPhrase.build options) from rfl, bind_assoc]
    exact bind_congr fun _ => ih

end Definitions

end StackCompiler
