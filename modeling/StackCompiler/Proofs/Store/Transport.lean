import StackCompiler.Proofs.Grammar.Simulation
import StackCompiler.Proofs.Store.Renaming

/-!
# Parsing behind other nodes

The parser reads and changes the nodes of its own unit only, and it knows them by the handles that it
was given for them. So parsing into a store that holds nodes already has the same result as parsing
into an empty one, put behind those nodes. Only the room for nodes may differ: the two runs agree if
both stores have the same room, or if the first run meets no limit and leaves no more nodes than the
second store has room for.

* `Store.free`: the room of a store.
* `Transports`: a step, and the same step behind other nodes.
* **`step_transports`**: reading a token.
* **`run_transports`**: reading tokens in a row.
* **`parseChars_graft`**, `parseChars_graft_of_room`: a text.
-/

namespace StackCompiler

/-- How many nodes the store takes before it refuses one. -/
def Store.free (store : Store) : Nat := store.maxNodes - store.size

/-- Is a full store the cause? -/
def ParseFault.isNodeLimit : ParseFault → Bool
  | .nodeLimit _ => true
  | _ => false

/-- The cause behind the nodes of a store: a refusal counts those nodes, too. -/
def ParseFault.graft (base : Store) : ParseFault → ParseFault
  | .nodeLimit refusal => .nodeLimit ⟨base.maxNodes, base.size + refusal.attempted⟩
  | cause => cause

def ParseError.graft (base : Store) (e : ParseError) : ParseError :=
  { e with cause := e.cause.graft base }

theorem ParseFault.graft_of_isNodeLimit {cause : ParseFault} (h : cause.isNodeLimit = false)
    (base : Store) : cause.graft base = cause := by
  cases cause with
  | nodeLimit refusal => cases h
  | _ => rfl

theorem ParseError.graft_of_isNodeLimit {e : ParseError} (h : e.cause.isNodeLimit = false)
    (base : Store) : e.graft base = e := by
  rw [graft, ParseFault.graft_of_isNodeLimit h]

/-- **A store that has grown**: no node was taken away, and it is of the same generation. -/
structure Store.Grown (store later : Store) : Prop where
  size_le : store.size ≤ later.size
  maxNodes : later.maxNodes = store.maxNodes
  generation : later.generation = store.generation

namespace Store.Grown

theorem refl (store : Store) : store.Grown store := ⟨Nat.le_refl _, rfl, rfl⟩

theorem trans {store middle later : Store} (h : store.Grown middle) (h' : middle.Grown later) :
    store.Grown later :=
  ⟨Nat.le_trans h.size_le h'.size_le, h'.maxNodes.trans h.maxNodes,
    h'.generation.trans h.generation⟩

theorem modifyBlock (store : Store) (id : BlockId) (f : Block → Block) :
    store.Grown (store.modifyBlock id f) :=
  ⟨Nat.le_of_eq (store.size_modifyBlock id f).symm, store.maxNodes_modifyBlock id f,
    store.generation_modifyBlock id f⟩

theorem modifyDef (store : Store) (id : DefId) (f : Definition → Definition) :
    store.Grown (store.modifyDef id f) :=
  ⟨Nat.le_of_eq (store.size_modifyDef id f).symm, store.maxNodes_modifyDef id f,
    store.generation_modifyDef id f⟩

end Store.Grown

/-! ## Steps -/

section Result

variable {α β : Type}

/-- What has been built up when a step ends. -/
def builtUp : EStateM.Result ParseError Workspace α → Workspace
  | .ok _ w => w
  | .error _ w => w

/-- Did a step end because the store was full? -/
def IsRefused : EStateM.Result ParseError Workspace α → Prop
  | .ok _ _ => False
  | .error e _ => e.cause.isNodeLimit = true

/-- A result behind the nodes of a store. -/
def graftResult (base : Store) (f : α → β) :
    EStateM.Result ParseError Workspace α → EStateM.Result ParseError Workspace β
  | .ok a w => .ok (f a) (w.graft base)
  | .error e w => .error (e.graft base) (w.graft base)

/-- **There is room for the nodes of a step behind those of a store.** -/
def FitsBehind (base : Store) (w : Workspace) (r : EStateM.Result ParseError Workspace α) : Prop :=
  w.store.maxNodes = base.free ∨ ¬ IsRefused r ∧ (builtUp r).store.size ≤ base.free

/-- **The second step does behind the nodes of a store what the first one does.** -/
structure Transports (base : Store) (f : α → β) (m : ParseM α) (m' : ParseM β) : Prop where
  /-- The first step adds nodes, if anything. -/
  grown : ∀ w : Workspace, w.store.Grown (builtUp (m w)).store
  /-- The results agree if there is room. -/
  result : ∀ w, FitsBehind base w (m w) → m' (w.graft base) = graftResult base f (m w)

end Result

namespace Transports

variable {α β γ δ : Type} {base : Store}

theorem bind {f : α → β} {g : γ → δ} {m : ParseM α} {m' : ParseM β} {k : α → ParseM γ}
    {k' : β → ParseM δ} (hm : Transports base f m m')
    (hk : ∀ a, Transports base g (k a) (k' (f a))) :
    Transports base g (m >>= k) (m' >>= k') where
  grown w := by
    have hgrown := hm.grown w
    cases hr : m w with
    | ok a w₁ =>
      rw [hr] at hgrown
      rw [bind_of_eq_ok hr]
      exact hgrown.trans ((hk a).grown w₁)
    | error e w₁ =>
      rw [hr] at hgrown
      rw [bind_of_eq_error hr]
      exact hgrown
  result w hfits := by
    have hresult := hm.result w
    have hgrown := hm.grown w
    cases hr : m w with
    | ok a w₁ =>
      rw [hr] at hresult hgrown
      rw [bind_of_eq_ok hr] at hfits ⊢
      -- the nodes of the first step are among those of both
      have hsize := ((hk a).grown w₁).size_le
      have hfirst : FitsBehind base w (.ok a w₁ : EStateM.Result ParseError Workspace α) :=
        hfits.imp_right fun h => ⟨not_false, Nat.le_trans hsize h.2⟩
      rw [bind_of_eq_ok (hresult hfirst)]
      exact (hk a).result w₁ (hfits.imp_left hgrown.maxNodes.trans)
    | error e w₁ =>
      rw [hr] at hresult
      rw [bind_of_eq_error hr] at hfits ⊢
      rw [bind_of_eq_error (hresult hfits)]
      rfl

/-- A step that leaves the workspace as it is. -/
theorem of_same {f : α → β} {m : ParseM α} {m' : ParseM β} (hsame : ∀ w, builtUp (m w) = w)
    (hresult : ∀ w, m' (w.graft base) = graftResult base f (m w)) : Transports base f m m' :=
  ⟨fun w => (hsame w).symm ▸ .refl w.store, fun w _ => hresult w⟩

theorem pure {f : α → β} {a : α} {b : β} (h : f a = b) :
    Transports base f (Pure.pure a) (Pure.pure b) :=
  .of_same (fun _ => rfl) fun _ => by rw [← h]; rfl

theorem get : Transports base (Workspace.graft base) MonadState.get MonadState.get :=
  .of_same (fun _ => rfl) fun _ => rfl

theorem modify {g g' : Workspace → Workspace} (hgrown : ∀ w : Workspace, w.store.Grown (g w).store)
    (h : ∀ w, g' (w.graft base) = (g w).graft base) :
    Transports base id (modify g) (modify g') := by
  refine ⟨hgrown, fun w _ => ?_⟩
  change EStateM.Result.ok () (g' (w.graft base)) = .ok () ((g w).graft base)
  rw [h]

theorem failAt {f : α → β} (token : Token) {cause : ParseFault}
    (hcause : cause.isNodeLimit = false) :
    Transports base f (failAt token cause) (failAt token cause) := by
  refine .of_same (fun _ => rfl) fun w => ?_
  change EStateM.Result.error _ _ = .error (ParseError.graft base ⟨cause, _⟩) _
  rw [ParseError.graft_of_isNodeLimit hcause]

theorem reject {f : α → β} (token : Token) (expected : Expectation) :
    Transports base f (reject token expected) (reject token expected) := by
  unfold StackCompiler.reject
  split
  · exact failAt token rfl
  · exact failAt token rfl

theorem ite {f : α → β} {p : Prop} [Decidable p] {m₁ m₂ : ParseM α} {m₁' m₂' : ParseM β}
    (h₁ : Transports base f m₁ m₁') (h₂ : Transports base f m₂ m₂') :
    Transports base f (if p then m₁ else m₂) (if p then m₁' else m₂') := by
  split
  · exact h₁
  · exact h₂

end Transports

open Transports

variable {base : Store}

/-! ## Basic steps -/

theorem takeIndex_transports : Transports base id takeIndex takeIndex :=
  ⟨fun w => .refl w.store, fun _ _ => rfl⟩

/-- A node is added, or refused. -/
theorem reserve_modifyGet {α : Type} (add : Workspace → α × Workspace) (w : Workspace) :
    (reserve >>= fun _ => modifyGet add : ParseM α) w =
      if w.store.maxNodes ≤ w.store.size then
        .error ⟨.nodeLimit ⟨w.store.maxNodes, w.store.size + 1⟩, none⟩ w
      else .ok (add w).1 (add w).2 := by
  have hreserve := reserve_apply w
  split at hreserve
  · next hfull => rw [if_pos hfull, bind_of_eq_error hreserve]
  · next hroom =>
    rw [if_neg hroom, bind_of_eq_ok hreserve]
    rfl

/-- **A node is added behind those of a store**, or refused there. -/
theorem transports_of_reserve {α β : Type} {f : α → β} {m : ParseM α} {m' : ParseM β}
    {add : Workspace → α × Workspace} {add' : Workspace → β × Workspace}
    (hm : m = reserve >>= fun _ => modifyGet add) (hm' : m' = reserve >>= fun _ => modifyGet add')
    (hsize : ∀ w, (add w).2.store.size = w.store.size + 1)
    (hgrown : ∀ w : Workspace, w.store.Grown (add w).2.store)
    (hadd : ∀ w, add' (w.graft base) = (f (add w).1, (add w).2.graft base)) :
    Transports base f m m' := by
  subst hm hm'
  refine ⟨fun w => ?_, fun w hfits => ?_⟩
  · rw [reserve_modifyGet]
    split
    · exact .refl w.store
    · exact hgrown w
  · rw [reserve_modifyGet] at hfits ⊢
    rw [reserve_modifyGet, Workspace.store_graft, Store.maxNodes_graft, Store.size_graft]
    by_cases hfull : w.store.maxNodes ≤ w.store.size
    · rw [if_pos hfull] at hfits ⊢
      -- a refusal fits only if both stores have the same room
      have hsame : w.store.maxNodes = base.free := hfits.resolve_right fun h => h.1 rfl
      rw [Store.free] at hsame
      rw [if_pos (by omega)]
      rfl
    · rw [if_neg hfull] at hfits ⊢
      have hroom : w.store.size + 1 ≤ base.free := by
        rcases hfits with hsame | ⟨-, hle⟩
        · omega
        · exact (hsize w).symm ▸ hle
      rw [Store.free] at hroom
      rw [if_neg (by omega), hadd]
      rfl

/-- **A block is added with renamed handles.** -/
theorem addBlock_transports {block block' : Block} (h : block.rename base.shift = block') :
    Transports base base.shift.block (addBlock block) (addBlock block') := by
  subst h
  refine transports_of_reserve rfl rfl (fun w => w.store.size_withBlock block)
    (fun w => ⟨(w.store.size_withBlock block).symm ▸ Nat.le_succ _, rfl, rfl⟩) fun w => ?_
  change ((base.graft w.store).nextBlock,
      { w.graft base with store := (base.graft w.store).withBlock (block.rename base.shift) }) =
    (base.shift.block w.store.nextBlock,
      Workspace.graft base { w with store := w.store.withBlock block })
  simp only [Workspace.graft, Store.nextBlock_graft, Store.graft_withBlock]

/-- **A definition is added with renamed handles.** -/
theorem define_transports {d d' : Definition} (h : d.rename base.shift = d') :
    Transports base id (define d) (define d') := by
  subst h
  have hsize (w : Workspace) := w.store.size_withDef { d with index := w.symbols.length }
  refine transports_of_reserve rfl rfl hsize
    (fun w => ⟨(hsize w).symm ▸ Nat.le_succ _, rfl, rfl⟩) fun w => ?_
  change (PUnit.unit, Workspace.mk ((base.graft w.store).withDef
      { d.rename base.shift with index := (renameSymbols base.shift w.symbols).length })
      (renameSymbols base.shift w.symbols ++ [(d.ident.text, (base.graft w.store).nextDef)])
      w.nextIndex) =
    (PUnit.unit, Workspace.graft base ⟨w.store.withDef { d with index := w.symbols.length },
      w.symbols ++ [(d.ident.text, w.store.nextDef)], w.nextIndex⟩)
  simp only [Workspace.graft, Store.nextDef_graft, Store.graft_withDef, renameSymbols,
    List.length_map, List.map_append, List.map_cons, List.map_nil]
  rfl

theorem modifyBlock_transports (target : BlockId) {f f' : Block → Block}
    (hf : ∀ block, f' (block.rename base.shift) = (f block).rename base.shift) :
    Transports base id (modifyBlock target f) (modifyBlock (base.shift.block target) f') :=
  .modify (fun _ => .modifyBlock ..) fun w => by
    simp only [Workspace.graft, Store.graft_modifyBlock base w.store hf]

theorem joinAlternative_transports (branch alternative : BlockId) :
    Transports base id (joinAlternative branch alternative)
      (joinAlternative (base.shift.block branch) (base.shift.block alternative)) :=
  modifyBlock_transports branch (Block.joined_rename base.shift alternative)

theorem fillScope_transports (body : BlockId) (children : List BlockId) :
    Transports base id (fillScope body children)
      (fillScope (base.shift.block body) (children.map base.shift.block)) :=
  modifyBlock_transports body (Block.filled_rename base.shift children)

theorem checkDepth_transports (options : ParseOptions) (opener : Token) (depth : Nat) :
    Transports base id (checkDepth options opener depth) (checkDepth options opener depth) :=
  .ite (.failAt opener rfl) (.pure rfl)

/-! ## Definitions -/

section Definitions

variable (options : ParseOptions) (header : Header) (signature : Signature) (parens : Bool)
  (token : Token)

theorem beginDefinition_transports (place : Option Token) :
    Transports base (ParseState.rename base.shift) (beginDefinition place token)
      (beginDefinition place token) := by
  unfold beginDefinition
  split
  · exact .pure rfl
  · exact .reject _ _

theorem nameDefinition_transports (family : Family) (keyword place : Token) :
    Transports base (ParseState.rename base.shift) (nameDefinition family keyword place token)
      (nameDefinition family keyword place token) := by
  refine .ite (.reject _ _) (get.bind fun w => ?_)
  rw [Workspace.symbols_graft, lookup_renameSymbols, Option.isSome_map]
  refine .ite (.failAt token rfl) (.pure ?_)
  cases family <;> rfl

theorem openFunction_transports :
    Transports base (ParseState.rename base.shift) (openFunction options header signature token)
      (openFunction options header signature token) := by
  simp only [openFunction_eq, beginFunction, bind_assoc]
  refine (addBlock_transports rfl).bind fun body => (define_transports rfl).bind fun _ => ?_
  exact (checkDepth_transports options token 1).bind fun _ => .pure rfl

theorem endSignature_transports :
    Transports base (ParseState.rename base.shift)
      (endSignature options header signature parens token)
      (endSignature options header signature parens token) :=
  .ite (.ite (.pure rfl) (.reject _ _))
    (.ite (openFunction_transports options header signature token) (.reject _ _))

theorem beginSignature_transports :
    Transports base (ParseState.rename base.shift)
      (beginSignature options header signature parens token)
      (beginSignature options header signature parens token) := by
  unfold beginSignature
  split
  · exact .pure rfl
  · exact .pure rfl
  · exact endSignature_transports options header signature parens token

theorem clauseType_transports (clause : Clause) (keyword : Token) (types : List Token) :
    Transports base (ParseState.rename base.shift)
      (clauseType options header signature parens clause keyword types token)
      (clauseType options header signature parens clause keyword types token) :=
  .ite (.pure rfl) (.ite (.reject _ _)
    (.ite (.pure rfl) (endSignature_transports options header _ parens token)))

theorem endMemory_transports :
    Transports base (ParseState.rename base.shift) (endMemory header token)
      (endMemory header token) :=
  .ite ((define_transports rfl).bind fun _ => .pure rfl) (.reject _ _)

theorem endString_transports :
    Transports base (ParseState.rename base.shift) (endString header token)
      (endString header token) :=
  .ite ((define_transports rfl).bind fun _ => .pure rfl) (.reject _ _)

end Definitions

/-! ## Scopes -/

theorem closeChains_transports (finished : List BlockId) (chains : List Chain) :
    Transports base (List.map base.shift.block) (closeChains finished chains)
      (closeChains (finished.map base.shift.block) (chains.map (Chain.rename base.shift))) := by
  induction chains generalizing finished with
  | nil => exact .pure rfl
  | cons chain outer ih =>
    refine (addBlock_transports ?_).bind fun body =>
      (addBlock_transports rfl).bind fun alternative => ?_
    · simp [Block.rename, Chain.rename]
    · exact (joinAlternative_transports chain.branch alternative).bind fun _ => ih [alternative]

section Scopes

variable (options : ParseOptions) (scope : OpenScope) (token : Token)

theorem OpenScope.level_rename (ρ : Renaming) : (scope.rename ρ).level = scope.level := by
  simp [level, Interior.rename]

theorem settle_transports :
    Transports base (OpenScope.rename base.shift) (settle scope)
      (settle (scope.rename base.shift)) := by
  unfold settle
  rw [OpenScope.interior_rename]
  refine (closeChains_transports [] scope.interior.chains).bind fun finished => .pure ?_
  exact scope.rename_modify base.shift fun interior => by simp [Interior.rename]

theorem openScope_transports (purpose : Purpose) (bracket : Bracket) :
    Transports base (ParseState.rename base.shift) (openScope options scope purpose bracket token)
      (openScope options (scope.rename base.shift) (purpose.rename base.shift) bracket token) := by
  rw [openScope_eq, openScope_eq, scope.level_rename]
  exact (checkDepth_transports options token _).bind fun _ => .pure rfl

theorem addTo_transports {block block' : Block} (h : block.rename base.shift = block') :
    Transports base (OpenScope.rename base.shift) (addTo scope block)
      (addTo (scope.rename base.shift) block') :=
  (addBlock_transports h).bind fun id => .pure (scope.rename_push base.shift id)

theorem serve_transports (id : BlockId) (purpose : Purpose) :
    Transports base (ParseState.rename base.shift) (serve scope id purpose)
      (serve (scope.rename base.shift) (base.shift.block id) (purpose.rename base.shift)) := by
  have hpush (id : BlockId) : (ParseState.block (scope.push id)).rename base.shift =
      .block ((scope.rename base.shift).push (base.shift.block id)) :=
    congrArg ParseState.block (scope.rename_push base.shift id)
  cases purpose with
  | plain => exact .pure (hpush id)
  | branchCondition keyword index => exact .pure rfl
  | branchBody keyword index condition =>
    refine (addBlock_transports rfl).bind fun branch => .pure ?_
    rw [ParseState.rename, scope.rename_push]
  | alternative keyword index branch =>
    refine (addBlock_transports rfl).bind fun alternative => ?_
    refine (joinAlternative_transports branch alternative).bind fun _ => ?_
    have hsettle : Transports base (OpenScope.rename base.shift) _ _ :=
      settle_transports (scope.push alternative)
    rw [scope.rename_push] at hsettle
    exact hsettle.bind fun _ => .pure rfl
  | loopCondition keyword index => exact .pure rfl
  | loopBody keyword index condition =>
    exact (addBlock_transports rfl).bind fun loop => .pure (hpush loop)

theorem closeScope_transports :
    Transports base (ParseState.rename base.shift) (closeScope scope)
      (closeScope (scope.rename base.shift)) := by
  cases scope with
  | function interior body =>
    have hblocks : (interior.rename base.shift).blocks.reverse =
        interior.blocks.reverse.map base.shift.block := List.map_reverse.symm
    rw [OpenScope.rename, closeScope, closeScope, hblocks]
    exact (fillScope_transports body _).bind fun _ => .pure rfl
  | nested interior purpose outer =>
    rw [OpenScope.rename, closeScope_nested, closeScope_nested]
    refine (addBlock_transports ?_).bind fun id => serve_transports outer id purpose
    simp [Block.rename, Interior.rename]

theorem reference_transports :
    Transports base (ParseState.rename base.shift) (reference scope token)
      (reference (scope.rename base.shift) token) := by
  refine get.bind fun w => ?_
  rw [Workspace.symbols_graft, lookup_renameSymbols]
  cases w.symbols.lookup token.text with
  | none => exact .failAt token rfl
  | some target =>
    refine (Transports.modify (fun _ => .modifyDef ..)
      fun w => w.graft_markUsed base target).bind fun _ => ?_
    exact (addTo_transports scope rfl).bind fun _ => .pure rfl

theorem call_transports :
    Transports base (ParseState.rename base.shift) (call scope token)
      (call (scope.rename base.shift) token) := by
  unfold call
  rw [OpenScope.interior_rename,
    show (scope.interior.rename base.shift).blocks = scope.interior.blocks.map base.shift.block
      from rfl]
  cases scope.interior.blocks with
  | nil => exact .failAt token rfl
  | cons callee before =>
    refine get.bind fun w => ?_
    rw [Workspace.store_graft, namesFunction_graft]
    refine .ite ?_ (.failAt token rfl)
    have hbefore : (scope.modify fun interior => { interior with blocks := before }).rename
        base.shift = (scope.rename base.shift).modify fun interior =>
          { interior with blocks := before.map base.shift.block } :=
      scope.rename_modify base.shift fun _ => rfl
    rw [← hbefore]
    exact (addTo_transports _ rfl).bind fun _ => .pure rfl

theorem beginBlock_transports :
    Transports base (ParseState.rename base.shift) (beginBlock options scope token)
      (beginBlock options (scope.rename base.shift) token) := by
  unfold beginBlock
  split
  · exact (addTo_transports scope rfl).bind fun _ => .pure rfl
  · exact (addTo_transports scope rfl).bind fun _ => .pure rfl
  · exact reference_transports scope token
  · exact call_transports scope token
  · exact .pure rfl
  · exact openScope_transports options scope token .plain _
  · exact takeIndex_transports.bind fun _ => .pure rfl
  · exact .failAt token rfl
  · exact .failAt token rfl
  · exact takeIndex_transports.bind fun _ => .pure rfl
  · exact .pure rfl
  · exact .failAt token rfl

theorem inScope_transports :
    Transports base (ParseState.rename base.shift) (inScope options scope token)
      (inScope options (scope.rename base.shift) token) := by
  unfold inScope
  simp only [OpenScope.interior_rename]
  exact .ite (closeScope_transports scope) (.ite (.failAt _ rfl) (.ite (.failAt token rfl)
    (.ite (.failAt token rfl) (beginBlock_transports options scope token))))

theorem castType_transports (keyword : Token) (types : List Token) :
    Transports base (ParseState.rename base.shift) (castType options scope keyword types token)
      (castType options (scope.rename base.shift) keyword types token) :=
  .ite (.pure rfl) (.ite (.reject _ _)
    ((addTo_transports scope rfl).bind fun scope => inScope_transports options scope token))

theorem endAssembly_transports (keyword : Token) :
    Transports base (ParseState.rename base.shift) (endAssembly scope keyword token)
      (endAssembly (scope.rename base.shift) keyword token) :=
  .ite ((addTo_transports scope rfl).bind fun _ => .pure rfl) (.reject _ _)

theorem afterBranch_transports (branch : BlockId) :
    Transports base (ParseState.rename base.shift) (afterBranch options scope branch token)
      (afterBranch options (scope.rename base.shift) (base.shift.block branch) token) := by
  unfold afterBranch
  split
  · exact takeIndex_transports.bind fun _ => .pure rfl
  · refine takeIndex_transports.bind fun index => takeIndex_transports.bind fun inner => .pure ?_
    rw [ParseState.rename, scope.rename_openChain]
    rfl
  · exact (settle_transports scope).bind fun scope => inScope_transports options scope token

end Scopes

/-! ## Runs -/

/-- **Reading a token looks at no node of another unit.** -/
theorem step_transports (options : ParseOptions) (state : ParseState) (token : Token) :
    Transports base (ParseState.rename base.shift) (step options state token)
      (step options (state.rename base.shift) token) := by
  cases state with
  | definition =>
    exact .ite (.pure rfl) (.ite (.pure rfl)
      (.ite (beginDefinition_transports token none) (.failAt token rfl)))
  | sectionName => exact .ite (.pure rfl) (.reject _ _)
  | definitionKeyword place => exact beginDefinition_transports token (some place)
  | definitionName family keyword place =>
    exact nameDefinition_transports token family keyword place
  | afterName header =>
    exact .ite (.pure rfl) (beginSignature_transports options header {} false token)
  | signature header signature parens =>
    exact beginSignature_transports options header signature parens token
  | clauseTypes header signature parens clause keyword types =>
    exact clauseType_transports options header signature parens token clause keyword types
  | capacity header => exact endMemory_transports header token
  | literal header => exact endString_transports header token
  | block scope => exact inScope_transports options scope token
  | castTypes scope keyword types => exact castType_transports options scope token keyword types
  | assemblyLine scope keyword => exact endAssembly_transports scope token keyword
  | opening scope purpose =>
    simp only [step, ParseState.rename]
    split
    · exact openScope_transports options scope token purpose _
    · rw [purpose.missing_rename]
      refine .failAt token ?_
      cases purpose <;> rfl
  | afterBranch scope branch => exact afterBranch_transports options scope token branch

/-- **Reading tokens in a row looks at no node of another unit.** -/
theorem run_transports (options : ParseOptions) (state : ParseState) (tokens : List Token) :
    Transports base (ParseState.rename base.shift) (run options state tokens)
      (run options (state.rename base.shift) tokens) := by
  induction tokens generalizing state with
  | nil => exact .pure rfl
  | cons token rest ih => exact (step_transports options state token).bind fun next => ih next

theorem parseTokens_transports (options : ParseOptions) (tokens : List Token)
    (error : Option LexError) :
    Transports base (List.map base.shift.definition) (parseTokens options tokens error)
      (parseTokens options tokens error) := by
  refine (run_transports options .definition tokens).bind fun _ => ?_
  cases error with
  | some e => exact .of_same (fun _ => rfl) fun _ => rfl
  | none =>
    refine get.bind fun w => .pure ?_
    simp [renameSymbols, Function.comp_def]

/-! ## Texts -/

/-- **What parsing gives, behind the nodes of a store.** -/
def Parsed.graft (base : Store) (parsed : Parsed) : Parsed where
  outcome := match parsed.outcome with
    | .ok unit => .ok (unit.map base.shift.definition)
    | .error e => .error (e.graft base)
  store := base.graft parsed.store

section Texts

variable (options : ParseOptions) (base : Store) (source : List Char)

/-- **Parsing leaves the limit and the generation of a store as they are.** -/
theorem parseChars_grown : base.Grown (parseChars options base source).store := by
  have htokens : Transports base _ _ _ := parseTokens_transports options
    (Lexer.ofChars source).run.tokens (Lexer.ofChars source).run.error
  have hgrown := htokens.grown ⟨base, [], 0⟩
  simp only [parseChars, parseLexer]
  cases hrun : parseTokens options (Lexer.ofChars source).run.tokens
      (Lexer.ofChars source).run.error ⟨base, [], 0⟩ with
  | ok unit w | error e w =>
    rw [hrun] at hgrown
    exact hgrown

/-- Parsing a text behind other nodes, if there is room. -/
theorem parseChars_graft_of_fits (limit : Nat)
    (hfits : FitsBehind base ⟨.empty limit, [], 0⟩
      (parseTokens options (Lexer.ofChars source).run.tokens (Lexer.ofChars source).run.error
        ⟨.empty limit, [], 0⟩)) :
    parseChars options base source = (parseChars options (.empty limit) source).graft base := by
  have hstart : (Workspace.mk (.empty limit) [] 0).graft base = ⟨base, [], 0⟩ := by
    rw [Workspace.graft, Store.graft_empty]
    rfl
  have hresult := (parseTokens_transports options (Lexer.ofChars source).run.tokens
    (Lexer.ofChars source).run.error).result _ hfits
  rw [hstart] at hresult
  simp only [parseChars, parseLexer, hresult]
  cases parseTokens options (Lexer.ofChars source).run.tokens (Lexer.ofChars source).run.error
    ⟨.empty limit, [], 0⟩ <;> rfl

/-- **Parsing into a store is parsing into an empty one with the same room**, behind the nodes that
the store holds. -/
theorem parseChars_graft :
    parseChars options base source = (parseChars options (.empty base.free) source).graft base :=
  parseChars_graft_of_fits options base source base.free (.inl rfl)

/-- **Parsing into a store is parsing into any empty one**, if that run meets no limit and what it
leaves fits. -/
theorem parseChars_graft_of_room {limit : Nat}
    (hlimit : ∀ e, (parseChars options (.empty limit) source).outcome = .error e →
      e.cause.isNodeLimit = false)
    (hroom : (parseChars options (.empty limit) source).store.size ≤ base.free) :
    parseChars options base source = (parseChars options (.empty limit) source).graft base := by
  refine parseChars_graft_of_fits options base source limit (.inr ?_)
  simp only [parseChars, parseLexer] at hlimit hroom
  split at hlimit
  · next unit w hrun =>
    rw [hrun] at hroom ⊢
    exact ⟨not_false, hroom⟩
  · next e w hrun =>
    rw [hrun] at hroom ⊢
    exact ⟨ne_true_of_eq_false (hlimit e rfl), hroom⟩

end Texts

end StackCompiler
