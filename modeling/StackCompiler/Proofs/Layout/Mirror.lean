import StackCompiler.Proofs.Grammar.Simulation
import StackCompiler.Proofs.Layout.Bare

/-!
# Parsing without locations

Locations reach no decision of the parser, and limits reach none but the two refusals that they are
for. So parsing tokens without their locations, under the same limits, gives the same result without
its locations; under higher limits it does so unless the first run met a limit.

* `Mirrors`: one step of parsing and its image.
* **`step_mirrors`**: reading a token.
* **`run_mirrors`**: reading tokens in a row.
-/

namespace StackCompiler

/-- The options with a higher limit. -/
def ParseOptions.raise (up : Nat) (options : ParseOptions) : ParseOptions :=
  { options with maxDepth := options.maxDepth + up }

/-- Is a limit the cause? -/
def ParseFault.isLimit : ParseFault → Bool
  | .nestingLimit _ | .nodeLimit _ => true
  | _ => false

/-- Did a step meet a limit? -/
def MeetsLimit {α : Type} : EStateM.Result ParseError Workspace α → Prop
  | .ok _ _ => False
  | .error e _ => e.cause.isLimit = true

/-- The image of a result. -/
def bareResult {α β : Type} (up : Nat) (f : α → β) :
    EStateM.Result ParseError Workspace α → EStateM.Result ParseError Workspace β
  | .ok a w => .ok (f a) (w.bare up)
  | .error e w => .error e.bare (w.bare up)

/-- **The second step does without locations what the first one does.** Under raised limits it may go
on where the first one met a limit. -/
def Mirrors {α β : Type} (up : Nat) (f : α → β) (m : ParseM α) (m' : ParseM β) : Prop :=
  ∀ w, m' (w.bare up) = bareResult up f (m w) ∨ (0 < up ∧ MeetsLimit (m w))

namespace Mirrors

variable {α β γ δ : Type} {up : Nat}

theorem bind {f : α → β} {g : γ → δ} {m : ParseM α} {m' : ParseM β} {k : α → ParseM γ}
    {k' : β → ParseM δ} (hm : Mirrors up f m m') (hk : ∀ a, Mirrors up g (k a) (k' (f a))) :
    Mirrors up g (m >>= k) (m' >>= k') := by
  intro w
  rcases hm w with h | ⟨hup, h⟩
  · cases hr : m w with
    | ok a w₁ =>
      rw [hr] at h
      rw [bind_of_eq_ok hr, bind_of_eq_ok h]
      exact hk a w₁
    | error e w₁ =>
      rw [hr] at h
      left
      rw [bind_of_eq_error hr, bind_of_eq_error h]
      rfl
  · right
    refine ⟨hup, ?_⟩
    cases hr : m w with
    | ok a w₁ =>
      rw [hr] at h
      exact h.elim
    | error e w₁ =>
      rw [hr] at h
      rw [bind_of_eq_error hr]
      exact h

theorem pure {f : α → β} {a : α} {b : β} (h : f a = b) :
    Mirrors up f (Pure.pure a) (Pure.pure b) := by
  intro w
  subst h
  exact .inl rfl

theorem get : Mirrors up (Workspace.bare up) MonadState.get MonadState.get := fun _ => .inl rfl

theorem modify {g g' : Workspace → Workspace} (h : ∀ w, g' (w.bare up) = (g w).bare up) :
    Mirrors up id (modify g) (modify g') := by
  intro w
  left
  change EStateM.Result.ok () (g' (w.bare up)) = .ok () ((g w).bare up)
  rw [h]

theorem failAt {f : α → β} {token token' : Token} (htoken : token.bare = token')
    {cause cause' : ParseFault} (hcause : cause.bare = cause') :
    Mirrors up f (failAt token cause) (failAt token' cause') := by
  intro w
  subst htoken hcause
  exact .inl rfl

theorem reject {f : α → β} (token : Token) (expected : Expectation) :
    Mirrors up f (reject token expected) (reject token.bare expected) := by
  unfold StackCompiler.reject
  rw [Token.kind_bare, Token.shown_bare]
  split
  · exact failAt rfl rfl
  · exact failAt rfl rfl

theorem ite {f : α → β} {p : Prop} [Decidable p] {m₁ m₂ : ParseM α} {m₁' m₂' : ParseM β}
    (h₁ : Mirrors up f m₁ m₁') (h₂ : Mirrors up f m₂ m₂') :
    Mirrors up f (if p then m₁ else m₂) (if p then m₁' else m₂') := by
  split
  · exact h₁
  · exact h₂

end Mirrors

open Mirrors

variable {up : Nat}

/-! ## Basic steps -/

theorem reserve_mirrors : Mirrors up id reserve reserve := by
  intro w
  rw [reserve_apply, reserve_apply]
  simp only [Workspace.store_bare, Store.maxNodes_bare, Store.size_bare]
  by_cases hfull : w.store.maxNodes ≤ w.store.size
  · rw [if_pos hfull]
    by_cases hup : 0 < up
    · exact .inr ⟨hup, rfl⟩
    · obtain rfl : up = 0 := by omega
      rw [Nat.add_zero, if_pos hfull]
      exact .inl rfl
  · rw [if_neg hfull, if_neg (by omega)]
    exact .inl rfl

theorem takeIndex_mirrors : Mirrors up id takeIndex takeIndex := fun _ => .inl rfl

/-- **A block is added without its location.** -/
theorem addBlock_mirrors {block block' : Block} (h : block.bare = block') :
    Mirrors up id (addBlock block) (addBlock block') := by
  subst h
  refine reserve_mirrors.bind fun _ w => .inl ?_
  change EStateM.Result.ok (w.bare up).store.nextBlock
      { w.bare up with store := (w.bare up).store.withBlock block.bare } =
    .ok w.store.nextBlock (Workspace.bare up { w with store := w.store.withBlock block })
  simp only [Workspace.bare, Store.nextBlock_bare, Store.bare_withBlock]

theorem modifyBlock_mirrors (target : BlockId) {f : Block → Block}
    (hf : ∀ block, f block.bare = (f block).bare) :
    Mirrors up id (modifyBlock target f) (modifyBlock target f) :=
  .modify fun w => by simp only [Workspace.bare, Store.bare_modifyBlock up w.store hf]

/-- **A definition is added without its locations.** -/
theorem define_mirrors {d d' : Definition} (h : d.bare = d') :
    Mirrors up id (define d) (define d') := by
  subst h
  refine reserve_mirrors.bind fun _ => .modify fun w => ?_
  change Workspace.mk ((w.bare up).store.withDef { d.bare with index := w.symbols.length })
      (w.symbols ++ [(d.ident.text, (w.bare up).store.nextDef)]) w.nextIndex =
    Workspace.bare up ⟨w.store.withDef { d with index := w.symbols.length },
      w.symbols ++ [(d.ident.text, w.store.nextDef)], w.nextIndex⟩
  simp only [Workspace.bare, Store.nextDef_bare, Store.bare_withDef]
  rfl

theorem joinAlternative_mirrors (branch alternative : BlockId) :
    Mirrors up id (joinAlternative branch alternative) (joinAlternative branch alternative) :=
  modifyBlock_mirrors branch (Block.bare_joined alternative)

theorem fillScope_mirrors (body : BlockId) (children : List BlockId) :
    Mirrors up id (fillScope body children) (fillScope body children) :=
  modifyBlock_mirrors body (Block.bare_filled children)

theorem checkDepth_mirrors (options : ParseOptions) (opener : Token) (depth : Nat) :
    Mirrors up id (checkDepth options opener depth)
      (checkDepth (options.raise up) opener.bare depth) := by
  intro w
  have hraise : (options.raise up).maxDepth = options.maxDepth + up := rfl
  unfold checkDepth
  by_cases hdeep : options.maxDepth < depth
  · rw [if_pos hdeep]
    by_cases hup : 0 < up
    · exact .inr ⟨hup, rfl⟩
    · obtain rfl : up = 0 := by omega
      rw [if_pos (by omega)]
      exact .inl rfl
  · rw [if_neg hdeep, if_neg (by omega)]
    exact .inl rfl

/-! ## Definitions -/

section Definitions

variable (options : ParseOptions) (header : Header) (signature : Signature) (parens : Bool)
  (token : Token)

theorem beginDefinition_mirrors (place : Option Token) :
    Mirrors up ParseState.bare (beginDefinition place token)
      (beginDefinition (place.map Token.bare) token.bare) := by
  unfold beginDefinition
  rw [Token.kind_bare]
  split
  · refine .pure ?_
    cases place <;> rfl
  · exact .reject _ _

theorem nameDefinition_mirrors (family : Family) (keyword place : Token) :
    Mirrors up ParseState.bare (nameDefinition family keyword place token)
      (nameDefinition family keyword.bare place.bare token.bare) := by
  refine .ite (.reject _ _) (get.bind fun w => .ite (.failAt rfl rfl) (.pure ?_))
  cases family <;> rfl

theorem openFunction_mirrors :
    Mirrors up ParseState.bare (openFunction options header signature token)
      (openFunction (options.raise up) header.bare signature.bare token.bare) := by
  simp only [openFunction_eq, beginFunction, bind_assoc]
  refine (addBlock_mirrors rfl).bind fun body => (define_mirrors rfl).bind fun _ => ?_
  exact (checkDepth_mirrors options token 1).bind fun _ => .pure rfl

theorem endSignature_mirrors :
    Mirrors up ParseState.bare (endSignature options header signature parens token)
      (endSignature (options.raise up) header.bare signature.bare parens token.bare) :=
  .ite (.ite (.pure rfl) (.reject _ _))
    (.ite (openFunction_mirrors options header signature token) (.reject _ _))

theorem beginSignature_mirrors :
    Mirrors up ParseState.bare (beginSignature options header signature parens token)
      (beginSignature (options.raise up) header.bare signature.bare parens token.bare) := by
  unfold beginSignature
  rw [Token.kind_bare]
  split
  · exact .pure rfl
  · exact .pure rfl
  · exact endSignature_mirrors options header signature parens token

theorem clauseType_mirrors (clause : Clause) (keyword : Token) (types : List Token) :
    Mirrors up ParseState.bare
      (clauseType options header signature parens clause keyword types token)
      (clauseType (options.raise up) header.bare signature.bare parens clause keyword.bare
        (types.map Token.bare) token.bare) := by
  unfold clauseType
  rw [Token.kind_bare, Token.text_bare, List.isEmpty_map, ← Signature.bare_add]
  refine .ite (.pure ?_) (.ite (.reject _ _) (.ite (.pure rfl) ?_))
  · simp [ParseState.bare]
  · exact endSignature_mirrors options header _ parens token

theorem endMemory_mirrors :
    Mirrors up ParseState.bare (endMemory header token) (endMemory header.bare token.bare) :=
  .ite ((define_mirrors rfl).bind fun _ => .pure rfl) (.reject _ _)

theorem endString_mirrors :
    Mirrors up ParseState.bare (endString header token) (endString header.bare token.bare) :=
  .ite ((define_mirrors rfl).bind fun _ => .pure rfl) (.reject _ _)

end Definitions

/-! ## Scopes -/

theorem closeChains_mirrors (finished : List BlockId) (chains : List Chain) :
    Mirrors up id (closeChains finished chains) (closeChains finished (chains.map Chain.bare)) := by
  induction chains generalizing finished with
  | nil => exact .pure rfl
  | cons chain outer ih =>
    refine (addBlock_mirrors rfl).bind fun body => (addBlock_mirrors rfl).bind fun alternative => ?_
    exact (joinAlternative_mirrors chain.branch alternative).bind fun _ => ih [alternative]

section Scopes

variable (options : ParseOptions) (scope : OpenScope) (token : Token)

theorem OpenScope.level_bare : scope.bare.level = scope.level := by
  simp [level, Interior.bare]

theorem settle_mirrors : Mirrors up OpenScope.bare (settle scope) (settle scope.bare) := by
  unfold settle
  rw [OpenScope.interior_bare]
  refine (closeChains_mirrors [] scope.interior.chains).bind fun finished => .pure ?_
  exact scope.bare_modify fun interior => rfl

theorem openScope_mirrors (purpose : Purpose) (bracket : Bracket) :
    Mirrors up ParseState.bare (openScope options scope purpose bracket token)
      (openScope (options.raise up) scope.bare purpose.bare bracket token.bare) := by
  rw [openScope_eq, openScope_eq, scope.level_bare]
  exact (checkDepth_mirrors options token _).bind fun _ => .pure rfl

theorem addTo_mirrors {block block' : Block} (h : block.bare = block') :
    Mirrors up OpenScope.bare (addTo scope block) (addTo scope.bare block') :=
  (addBlock_mirrors h).bind fun id => .pure (scope.bare_push id)

theorem serve_mirrors (id : BlockId) (purpose : Purpose) :
    Mirrors up ParseState.bare (serve scope id purpose) (serve scope.bare id purpose.bare) := by
  have hpush (id : BlockId) : (ParseState.block (scope.push id)).bare =
      .block (scope.bare.push id) := congrArg ParseState.block (scope.bare_push id)
  cases purpose with
  | plain => exact .pure (hpush id)
  | branchCondition keyword index => exact .pure rfl
  | branchBody keyword index condition =>
    refine (addBlock_mirrors rfl).bind fun branch => .pure ?_
    rw [ParseState.bare, scope.bare_push]
    rfl
  | alternative keyword index branch =>
    refine (addBlock_mirrors rfl).bind fun alternative => ?_
    refine (joinAlternative_mirrors branch alternative).bind fun _ => ?_
    have hsettle : Mirrors up OpenScope.bare _ _ := settle_mirrors (scope.push alternative)
    rw [scope.bare_push] at hsettle
    exact hsettle.bind fun _ => .pure rfl
  | loopCondition keyword index => exact .pure rfl
  | loopBody keyword index condition =>
    exact (addBlock_mirrors rfl).bind fun loop => .pure (hpush loop)

theorem closeScope_mirrors :
    Mirrors up ParseState.bare (closeScope scope) (closeScope scope.bare) := by
  cases scope with
  | function interior body => exact (fillScope_mirrors body _).bind fun _ => .pure rfl
  | nested interior purpose outer =>
    rw [OpenScope.bare, closeScope_nested, closeScope_nested]
    exact (addBlock_mirrors rfl).bind fun id => serve_mirrors outer id purpose

theorem reference_mirrors :
    Mirrors up ParseState.bare (reference scope token) (reference scope.bare token.bare) := by
  refine get.bind fun w => ?_
  rw [Workspace.symbols_bare, Token.text_bare]
  split
  · exact .failAt rfl rfl
  · next target _ =>
    refine (Mirrors.modify fun w => w.bare_markUsed up target).bind fun _ => ?_
    exact (addTo_mirrors scope rfl).bind fun _ => .pure rfl

theorem call_mirrors :
    Mirrors up ParseState.bare (call scope token) (call scope.bare token.bare) := by
  unfold call
  rw [OpenScope.interior_bare, show scope.interior.bare.blocks = scope.interior.blocks from rfl]
  split
  · exact .failAt rfl rfl
  · next callee before _ =>
    refine get.bind fun w => ?_
    rw [Workspace.store_bare, namesFunction_bare]
    refine .ite ?_ (.failAt rfl rfl)
    have hbefore : (scope.modify fun interior => { interior with blocks := before }).bare =
        scope.bare.modify fun interior => { interior with blocks := before } :=
      scope.bare_modify fun interior => rfl
    rw [← hbefore]
    exact (addTo_mirrors _ rfl).bind fun _ => .pure rfl

theorem beginBlock_mirrors :
    Mirrors up ParseState.bare (beginBlock options scope token)
      (beginBlock (options.raise up) scope.bare token.bare) := by
  unfold beginBlock
  rw [Token.kind_bare]
  split
  · exact (addTo_mirrors scope rfl).bind fun _ => .pure rfl
  · exact (addTo_mirrors scope rfl).bind fun _ => .pure rfl
  · exact reference_mirrors scope token
  · exact call_mirrors scope token
  · exact .pure rfl
  · exact openScope_mirrors options scope token .plain _
  · exact takeIndex_mirrors.bind fun _ => .pure rfl
  · exact .failAt rfl rfl
  · exact .failAt rfl rfl
  · exact takeIndex_mirrors.bind fun _ => .pure rfl
  · exact .pure rfl
  · exact .failAt rfl rfl

theorem inScope_mirrors :
    Mirrors up ParseState.bare (inScope options scope token)
      (inScope (options.raise up) scope.bare token.bare) := by
  unfold inScope
  simp only [OpenScope.interior_bare, Token.kind_bare]
  exact .ite (closeScope_mirrors scope) (.ite (.failAt rfl rfl) (.ite (.failAt rfl rfl)
    (.ite (.failAt rfl rfl) (beginBlock_mirrors options scope token))))

theorem castType_mirrors (keyword : Token) (types : List Token) :
    Mirrors up ParseState.bare (castType options scope keyword types token)
      (castType (options.raise up) scope.bare keyword.bare (types.map Token.bare) token.bare) := by
  unfold castType
  rw [Token.kind_bare, Token.text_bare, List.isEmpty_map]
  refine .ite (.pure ?_) (.ite (.reject _ _) ?_)
  · simp [ParseState.bare]
  · exact (addTo_mirrors scope rfl).bind fun scope => inScope_mirrors options scope token

theorem endAssembly_mirrors (keyword : Token) :
    Mirrors up ParseState.bare (endAssembly scope keyword token)
      (endAssembly scope.bare keyword.bare token.bare) :=
  .ite ((addTo_mirrors scope rfl).bind fun _ => .pure rfl) (.reject _ _)

theorem afterBranch_mirrors (branch : BlockId) :
    Mirrors up ParseState.bare (afterBranch options scope branch token)
      (afterBranch (options.raise up) scope.bare branch token.bare) := by
  unfold afterBranch
  rw [Token.kind_bare]
  split
  · exact takeIndex_mirrors.bind fun _ => .pure rfl
  · refine takeIndex_mirrors.bind fun index => takeIndex_mirrors.bind fun inner => .pure ?_
    rw [ParseState.bare, scope.bare_openChain]
    rfl
  · exact (settle_mirrors scope).bind fun scope => inScope_mirrors options scope token

end Scopes

/-! ## Runs -/

/-- **Reading a token makes no use of locations.** -/
theorem step_mirrors (options : ParseOptions) (state : ParseState) (token : Token) :
    Mirrors up ParseState.bare (step options state token)
      (step (options.raise up) state.bare token.bare) := by
  cases state with
  | definition =>
    exact .ite (.pure rfl) (.ite (.pure rfl)
      (.ite (beginDefinition_mirrors token none) (.failAt rfl rfl)))
  | sectionName => exact .ite (.pure rfl) (.reject _ _)
  | definitionKeyword place => exact beginDefinition_mirrors token (some place)
  | definitionName family keyword place => exact nameDefinition_mirrors token family keyword place
  | afterName header =>
    exact .ite (.pure rfl) (beginSignature_mirrors options header {} false token)
  | signature header signature parens =>
    exact beginSignature_mirrors options header signature parens token
  | clauseTypes header signature parens clause keyword types =>
    exact clauseType_mirrors options header signature parens token clause keyword types
  | capacity header => exact endMemory_mirrors header token
  | literal header => exact endString_mirrors header token
  | block scope => exact inScope_mirrors options scope token
  | castTypes scope keyword types => exact castType_mirrors options scope token keyword types
  | assemblyLine scope keyword => exact endAssembly_mirrors scope token keyword
  | opening scope purpose =>
    simp only [step, ParseState.bare, Token.kind_bare]
    split
    · exact openScope_mirrors options scope token purpose _
    · exact .failAt rfl (purpose.bare_missing token.shown)
  | afterBranch scope branch => exact afterBranch_mirrors options scope token branch

/-- **Reading tokens in a row makes no use of locations.** -/
theorem run_mirrors (up : Nat) (options : ParseOptions) (state : ParseState)
    (tokens : List Token) :
    Mirrors up ParseState.bare (run options state tokens)
      (run (options.raise up) state.bare (tokens.map Token.bare)) := by
  induction tokens generalizing state with
  | nil => exact .pure rfl
  | cons token rest ih => exact (step_mirrors options state token).bind fun next => ih next

end StackCompiler
