import StackCompiler.Proofs.Grammar.Acceptance

/-!
# Exact limits

A text needs as many nodes and as many levels of scopes as its derivation says. Limits that grant
them change nothing about what is built. Limits that do not are met: parsing stops with one of the
two errors that they are for, and the store holds no more nodes than it may.

* `Phrase.depth`, `Phrase.nodes`: levels of scopes and nodes of a phrase.
* `unitDepth`, `unitNodes`: the same for the definitions of a text.
* `Workspace.limited`: a workspace under another limit of nodes.
* `Limited`: what a step needs, and what it does under other limits.
* **`Phrase.build_limited`**, **`DefinitionPhrase.build_limited`**: phrases and definitions.
* **`parseChars_exactLimits`**: texts.
-/

namespace StackCompiler

/-! ## Levels and nodes -/

namespace Phrase

/-- **The levels of scopes in a phrase.** What follows `elif` lies in a scope of its own. -/
def depth : {n : Nonterminal} → Phrase n → Nat
  | _, .expression _ | _, .reference _ | _, .call .. | _, .cast .. | _, .assembly .. | _, .nil
  | _, .stop => 0
  | _, .nested scope => scope.depth
  | _, .branch _ condition body chain => max condition.depth (max body.depth chain.depth)
  | _, .loop _ condition body => max condition.depth body.depth
  | _, .cons first rest => max first.depth rest.depth
  | _, .enclosed _ _ inside _ => inside.depth + 1
  | _, .otherwise _ body => body.depth
  | _, .elseIf _ condition body chain => max condition.depth (max body.depth chain.depth) + 1

/-- **The nodes of a phrase.** A call is one more node than the name that is called. -/
def nodes : {n : Nonterminal} → Phrase n → Nat
  | _, .nil | _, .stop => 0
  | _, .expression _ | _, .reference _ | _, .cast .. | _, .assembly .. => 1
  | _, .call .. => 2
  | _, .nested scope => scope.nodes
  | _, .branch _ condition body chain => condition.nodes + body.nodes + chain.nodes + 1
  | _, .loop _ condition body => condition.nodes + body.nodes + 1
  | _, .cons first rest => first.nodes + rest.nodes
  | _, .enclosed _ _ inside _ => inside.nodes + 1
  | _, .otherwise _ body => body.nodes + 1
  -- a branch, the scope around it, and the alternative
  | _, .elseIf _ condition body chain => condition.nodes + body.nodes + chain.nodes + 3

theorem depth_pos (p : Phrase .scope) : 0 < p.depth := by
  cases p with
  | enclosed bracket opener inside closer => exact Nat.succ_pos _

end Phrase

namespace DefinitionPhrase

/-- The levels of scopes in a definition. The body of a function is the first. -/
def depth (d : DefinitionPhrase) : Nat :=
  match d.subject with
  | .function f => f.inside.depth + 1
  | .memory _ | .string _ => 0

/-- The nodes of a definition. -/
def nodes (d : DefinitionPhrase) : Nat :=
  match d.subject with
  | .function f => f.inside.nodes + 2
  | .memory _ | .string _ => 1

end DefinitionPhrase

/-- **The levels of scopes in a text.** -/
def unitDepth (ds : List DefinitionPhrase) : Nat := (ds.map DefinitionPhrase.depth).foldr max 0

/-- **The nodes of a text.** -/
def unitNodes (ds : List DefinitionPhrase) : Nat := (ds.map DefinitionPhrase.nodes).foldr (· + ·) 0

/-! ## Steps under other limits -/

/-- The store under another limit of nodes. -/
def Store.limited (maxNodes : Nat) (store : Store) : Store := { store with maxNodes := maxNodes }

section Limited

variable (maxNodes : Nat) (store : Store)

theorem Store.modifyBlock_limited (target : BlockId) (f : Block → Block) :
    (store.limited maxNodes).modifyBlock target f =
      (store.modifyBlock target f).limited maxNodes := by
  by_cases h : target.generation = store.generation
  · simp [Store.modifyBlock, Store.limited, h]
  · simp [Store.modifyBlock, Store.limited, h]

theorem Store.modifyDef_limited (target : DefId) (f : Definition → Definition) :
    (store.limited maxNodes).modifyDef target f =
      (store.modifyDef target f).limited maxNodes := by
  by_cases h : target.generation = store.generation
  · simp [Store.modifyDef, Store.limited, h]
  · simp [Store.modifyDef, Store.limited, h]

end Limited

/-- The workspace under another limit of nodes. -/
def Workspace.limited (maxNodes : Nat) (w : Workspace) : Workspace :=
  { w with store := w.store.limited maxNodes }

/-- **An error that a limit is for.** -/
def ParseError.IsLimit (maxDepth maxNodes : Nat) (store : Store) (e : ParseError) : Prop :=
  e.cause = .nestingLimit maxDepth ∨ e.cause = .nodeLimit ⟨maxNodes, store.size + 1⟩

/-- **A step stops at a limit**, with no more nodes than there were or may be. -/
def StopsAtLimit {α : Type} (maxDepth maxNodes size : Nat) :
    EStateM.Result ParseError Workspace α → Prop
  | .ok _ _ => False
  | .error e w => e.IsLimit maxDepth maxNodes w.store ∧ w.store.size ≤ max size maxNodes

namespace StopsAtLimit

variable {α β : Type} {maxDepth maxNodes size size' : Nat}

theorem mono {result : EStateM.Result ParseError Workspace α}
    (h : StopsAtLimit maxDepth maxNodes size result) (hsize : size ≤ max size' maxNodes) :
    StopsAtLimit maxDepth maxNodes size' result := by
  cases result with
  | ok a w => exact h
  | error e w =>
    refine ⟨h.1, ?_⟩
    have := h.2
    omega

theorem bind {m : ParseM α} {w : Workspace} (h : StopsAtLimit maxDepth maxNodes size (m w))
    (f : α → ParseM β) : StopsAtLimit maxDepth maxNodes size ((m >>= f) w) := by
  cases hresult : m w with
  | ok a w' =>
    rw [hresult] at h
    exact h.elim
  | error e w' =>
    rw [hresult] at h
    rw [bind_of_eq_error hresult]
    exact h

end StopsAtLimit

/-- **What a step needs.** Given that it succeeds under some limits, it adds a number of nodes, and
does the same under any other limits that grant them and fit its levels of scopes. Under all others
it stops at a limit. -/
def Limited {α : Type} (m : Nat → ParseM α) (fits : Nat → Prop) (nodes : Nat) : Prop :=
  ∀ depth w a w', m depth w = .ok a w' → w'.store.size = w.store.size + nodes ∧
    ∀ maxDepth maxNodes,
      (fits maxDepth ∧ nodes ≤ maxNodes - w.store.size →
        m maxDepth (w.limited maxNodes) = .ok a (w'.limited maxNodes)) ∧
      (¬ (fits maxDepth ∧ nodes ≤ maxNodes - w.store.size) →
        StopsAtLimit maxDepth maxNodes w.store.size (m maxDepth (w.limited maxNodes)))

namespace Limited

variable {α β : Type} {fits fits' : Nat → Prop} {i j : Nat}

theorem bind {m : Nat → ParseM α} {f : Nat → α → ParseM β} (hm : Limited m fits i)
    (hf : ∀ a, Limited (fun d => f d a) fits' j) :
    Limited (fun d => m d >>= f d) (fun d => fits d ∧ fits' d) (i + j) := by
  intro depth w b w'' h
  obtain ⟨a, w', h₁, h₂⟩ := bind_eq_ok.mp h
  obtain ⟨hsize, hlimits⟩ := hm depth w a w' h₁
  obtain ⟨hsize', hlimits'⟩ := hf a depth w' b w'' h₂
  refine ⟨by omega, fun maxDepth maxNodes => ?_⟩
  obtain ⟨hgo, hstop⟩ := hlimits maxDepth maxNodes
  obtain ⟨hgo', hstop'⟩ := hlimits' maxDepth maxNodes
  rw [hsize] at hgo' hstop'
  dsimp only at hgo' hstop' ⊢
  by_cases hfits : fits maxDepth ∧ i ≤ maxNodes - w.store.size
  · rw [bind_of_eq_ok (hgo hfits)]
    constructor
    · rintro ⟨⟨-, hfits'⟩, hnodes⟩
      exact hgo' ⟨hfits', by omega⟩
    · intro hnot
      refine (hstop' fun ⟨hfits', hnodes⟩ => hnot ⟨⟨hfits.1, hfits'⟩, ?_⟩).mono ?_
      · omega
      · omega
  · refine ⟨fun ⟨⟨hdepth, _⟩, hnodes⟩ => absurd ⟨hdepth, ?_⟩ hfits, fun _ => (hstop hfits).bind _⟩
    omega

theorem congr {m : Nat → ParseM α} (hm : Limited m fits i) (hfits : ∀ d, fits d ↔ fits' d)
    (hij : i = j) : Limited m fits' j := by
  have hsame : fits = fits' := funext fun d => propext (hfits d)
  rw [← hsame, ← hij]
  exact hm

/-- A step that no limit can stop. -/
theorem of_free {m : ParseM α}
    (h : ∀ w a w', m w = .ok a w' → w'.store.size = w.store.size ∧
      ∀ maxNodes, m (w.limited maxNodes) = .ok a (w'.limited maxNodes)) :
    Limited (fun _ => m) (fun _ => True) 0 := by
  intro _ w a w' hm
  obtain ⟨hsize, hlimits⟩ := h w a w' hm
  refine ⟨hsize, fun _ maxNodes => ⟨fun _ => hlimits maxNodes, fun hnot => ?_⟩⟩
  exact absurd ⟨trivial, Nat.zero_le _⟩ hnot

theorem pure (a : α) : Limited (fun _ => Pure.pure a) (fun _ => True) 0 := by
  refine of_free fun w b w' h => ?_
  obtain ⟨rfl, rfl⟩ := pure_eq_ok.mp h
  exact ⟨rfl, fun _ => rfl⟩

/-- A step and a result that needs no more. -/
theorem map {m : Nat → ParseM α} (hm : Limited m fits i) (f : α → β) :
    Limited (fun d => m d >>= fun a => Pure.pure (f a)) fits i :=
  (hm.bind fun a => pure (f a)).congr (fun _ => iff_of_eq (and_true _)) rfl

theorem takeIndex : Limited (fun _ => takeIndex) (fun _ => True) 0 := by
  refine of_free fun w index w' h => ?_
  rw [takeIndex_eq] at h
  cases h
  exact ⟨rfl, fun _ => rfl⟩

theorem modifyBlock (target : BlockId) (f : Block → Block) :
    Limited (fun _ => modifyBlock target f) (fun _ => True) 0 := by
  refine of_free fun w u w' h => ?_
  cases h
  refine ⟨Store.size_modifyBlock .., fun maxNodes => ?_⟩
  have hmodify := w.store.modifyBlock_limited maxNodes target f
  change EStateM.Result.ok () (Workspace.mk ((w.store.limited maxNodes).modifyBlock target f)
    w.symbols w.nextIndex) = _
  rw [hmodify]
  rfl

theorem joinChain (branch : BlockId) (alternatives : List BlockId) :
    Limited (fun _ => joinChain branch alternatives) (fun _ => True) 0 := by
  cases alternatives with
  | nil => exact pure ()
  | cons alternative rest => exact modifyBlock branch _

theorem checkName (name : Token) : Limited (fun _ => checkName name) (fun _ => True) 0 := by
  refine of_free fun w u w' h => ?_
  obtain ⟨hlookup, rfl⟩ := checkName_eq_ok.mp h
  exact ⟨rfl, fun _ => checkName_eq_ok.mpr ⟨hlookup, rfl⟩⟩

/-- **A scope that lies too deep is refused.** -/
theorem checkDepth (options : ParseOptions) (opener : Token) (depth : Nat) :
    Limited (fun d => checkDepth { options with maxDepth := d } opener depth) (depth ≤ ·) 0 := by
  intro _ w u w' h
  obtain ⟨-, rfl⟩ := checkDepth_eq_ok.mp h
  refine ⟨rfl, fun maxDepth maxNodes => ⟨fun hfits => ?_, fun hnot => ?_⟩⟩
  · exact checkDepth_eq_ok.mpr ⟨hfits.1, rfl⟩
  · have hlt : maxDepth < depth := Nat.lt_of_not_le fun hle => hnot ⟨hle, Nat.zero_le _⟩
    dsimp only
    rw [StackCompiler.checkDepth, if_pos hlt]
    exact ⟨.inl rfl, Nat.le_max_left ..⟩

/-- **A node past the limit is refused.** -/
theorem reserve_bind {m : ParseM α}
    (h : ∀ w a w', m w = .ok a w' → w'.store.size = w.store.size + 1 ∧
      ∀ maxNodes, m (w.limited maxNodes) = .ok a (w'.limited maxNodes)) :
    Limited (fun _ => reserve >>= fun _ => m) (fun _ => True) 1 := by
  intro _ w a w' hm
  obtain ⟨_, w₁, hreserve, hm⟩ := bind_eq_ok.mp hm
  obtain ⟨-, rfl⟩ := reserve_eq_ok.mp hreserve
  obtain ⟨hsize, hlimits⟩ := h w a w' hm
  refine ⟨hsize, fun _ maxNodes => ⟨fun hfits => ?_, fun hnot => ?_⟩⟩
  · have hroom : (w.limited maxNodes).store.size < (w.limited maxNodes).store.maxNodes := by
      change w.store.size < maxNodes
      omega
    exact bind_eq_ok.mpr ⟨(), _, reserve_eq_ok.mpr ⟨hroom, rfl⟩, hlimits maxNodes⟩
  · have hfull : maxNodes ≤ w.store.size := by
      by_contra hlt
      exact hnot ⟨trivial, by omega⟩
    refine StopsAtLimit.bind ?_ _
    rw [reserve_apply]
    refine (if_pos (show (w.limited maxNodes).store.maxNodes ≤ (w.limited maxNodes).store.size from
      hfull)) ▸ ?_
    exact ⟨.inr rfl, Nat.le_max_left ..⟩

theorem addBlock (block : Block) : Limited (fun _ => addBlock block) (fun _ => True) 1 := by
  refine reserve_bind fun w id w' h => ?_
  cases h
  exact ⟨Store.size_withBlock .., fun _ => rfl⟩

theorem define (d : Definition) : Limited (fun _ => define d) (fun _ => True) 1 := by
  refine reserve_bind fun w u w' h => ?_
  cases h
  exact ⟨Store.size_withDef .., fun _ => rfl⟩

/-- A step that does what another one does from a workspace of the same size. -/
theorem of_step {m : Nat → ParseM α}
    (h : ∀ depth w a w', m depth w = .ok a w' → ∃ (m' : Nat → ParseM α) (w₁ : Workspace),
      Limited m' fits i ∧ w₁.store.size = w.store.size ∧ m' depth w₁ = .ok a w' ∧
      ∀ maxDepth maxNodes, m maxDepth (w.limited maxNodes) = m' maxDepth (w₁.limited maxNodes)) :
    Limited m fits i := by
  intro depth w a w' hm
  obtain ⟨m', w₁, hm', hsize, hstep, hsame⟩ := h depth w a w' hm
  obtain ⟨hadded, hlimits⟩ := hm' depth w₁ a w' hstep
  rw [hsize] at hadded hlimits
  refine ⟨hadded, fun maxDepth maxNodes => ?_⟩
  rw [hsame]
  exact hlimits maxDepth maxNodes

/-- **A reference is one node.** -/
theorem addReference (name : Token) : Limited (fun _ => addReference name) (fun _ => True) 1 := by
  refine of_step fun _ w id w' h => ?_
  obtain ⟨target, hlookup, h⟩ := addReference_eq_ok.mp h
  refine ⟨_, w.markUsed target, addBlock (.reference name target), Store.size_modifyDef .., h,
    fun _ maxNodes => ?_⟩
  have hmark : (w.limited maxNodes).markUsed target = (w.markUsed target).limited maxNodes := by
    simp only [Workspace.markUsed, Workspace.limited, Store.modifyDef_limited]
  have hlookup' : (w.limited maxNodes).symbols.lookup name.text = some target := hlookup
  rw [StackCompiler.addReference, get_bind, hlookup', ← hmark]
  rfl

/-- **A call is one more node.** -/
theorem addCall (name keyword : Token) :
    Limited (fun _ => addCall name keyword) (fun _ => True) 2 := by
  have hcall (callee : BlockId) : Limited (fun _ => do
      if namesFunction (← get).store callee then
        StackCompiler.addBlock (.call keyword.location callee)
      else failAt keyword .invalidCall) (fun _ => True) 1 := by
    refine of_step fun _ w id w' h => ?_
    rw [get_bind] at h
    by_cases hnames : namesFunction w.store callee = true
    · rw [if_pos hnames] at h
      refine ⟨_, w, addBlock (.call keyword.location callee), rfl, h, fun _ maxNodes => ?_⟩
      have hnames' : namesFunction (w.limited maxNodes).store callee = true := hnames
      rw [get_bind, if_pos hnames']
    · rw [if_neg hnames] at h
      exact absurd h failAt_ne_ok
  exact ((addReference name).bind hcall).congr (fun _ => iff_of_eq (and_true _)) rfl

theorem addBranch (keyword : Token) (index : Nat) {condition body : Nat → ParseM BlockId}
    {chain : Nat → ParseM (List BlockId)} {fits'' : Nat → Prop} {k : Nat}
    (hcondition : Limited condition fits i) (hbody : Limited body fits' j)
    (hchain : Limited chain fits'' k) :
    Limited (fun d => addBranch keyword index (condition d) (body d) (chain d))
      (fun d => fits d ∧ fits' d ∧ fits'' d) (i + j + k + 1) := by
  have h := hcondition.bind fun c => hbody.bind fun b =>
    (addBlock (.branch keyword.location c b none index)).bind fun branch =>
      hchain.bind fun alternatives =>
        (joinChain branch alternatives).map fun _ => branch :: alternatives
  exact h.congr (fun _ => by simp) (by omega)

end Limited

/-! ## Phrases -/

/-- Levels of scopes fit inside a number of levels, if there are any. -/
def FitsInside (level depth : Nat) (maxDepth : Nat) : Prop := depth = 0 ∨ level + depth ≤ maxDepth

theorem fitsInside_zero (level maxDepth : Nat) : True ↔ FitsInside level 0 maxDepth :=
  iff_of_true trivial (.inl rfl)

theorem fitsInside_max {level depth depth' maxDepth : Nat} :
    FitsInside level (max depth depth') maxDepth ↔
      FitsInside level depth maxDepth ∧ FitsInside level depth' maxDepth := by
  unfold FitsInside
  omega

section Phrases

variable (options : ParseOptions)

/-- **What a phrase needs** inside a number of scopes. -/
theorem Phrase.build_limited {n : Nonterminal} (p : Phrase n) (level : Nat) :
    Limited (fun d => p.build { options with maxDepth := d } level) (FitsInside level p.depth)
      p.nodes := by
  induction p generalizing level with
  | expression token => exact ((Limited.addBlock _).map _).congr (fitsInside_zero level) rfl
  | reference name => exact ((Limited.addReference _).map _).congr (fitsInside_zero level) rfl
  | call name keyword => exact ((Limited.addCall _ _).map _).congr (fitsInside_zero level) rfl
  | cast keyword types => exact ((Limited.addBlock _).map _).congr (fitsInside_zero level) rfl
  | assembly keyword literal =>
    exact ((Limited.addBlock _).map _).congr (fitsInside_zero level) rfl
  | nil => exact (Limited.pure _).congr (fitsInside_zero level) rfl
  | stop => exact (Limited.pure _).congr (fitsInside_zero level) rfl
  | nested scope ih => exact (ih level).map _
  | branch keyword condition body chain ihc ihb ihch =>
    have h := Limited.takeIndex.bind fun index =>
      Limited.addBranch keyword.1 index (ihc level) (ihb level) (ihch level)
    exact h.congr (fun d => by simp [Phrase.depth, fitsInside_max]) (by simp [Phrase.nodes])
  | loop keyword condition body ihc ihb =>
    have h := Limited.takeIndex.bind fun index => (ihc level).bind fun c =>
      (ihb level).bind fun b =>
        (Limited.addBlock (.loop keyword.1.location c b index)).map fun id => [id]
    exact h.congr (fun d => by simp [Phrase.depth, fitsInside_max])
      (by simp only [Phrase.nodes]; omega)
  | cons first rest ihf ihr =>
    have h := (ihf level).bind fun ids => (ihr level).map fun more => ids ++ more
    exact h.congr (fun d => fitsInside_max.symm) rfl
  | enclosed bracket opener inside closer ih =>
    have h := (Limited.checkDepth options opener.1 (level + 1)).bind fun _ =>
      (ih (level + 1)).bind fun ids => Limited.addBlock (.scope bracket opener.1.location ids)
    refine h.congr (fun d => ?_) (by simp only [Phrase.nodes]; omega)
    simp only [FitsInside, Phrase.depth, and_true]
    omega
  | otherwise keyword body ih =>
    have h := Limited.takeIndex.bind fun index => (ih level).bind fun b =>
      (Limited.addBlock (.alternative keyword.1.location b index)).map fun id => [id]
    exact h.congr (fun d => by simp [Phrase.depth]) (by simp only [Phrase.nodes]; omega)
  | elseIf keyword condition body chain ihc ihb ihch =>
    have h := Limited.takeIndex.bind fun index => Limited.takeIndex.bind fun inner =>
      (Limited.addBranch keyword.1 inner (ihc (level + 1)) (ihb (level + 1))
        (ihch (level + 1))).bind fun ids =>
          (Limited.addBlock (.scope .brace keyword.1.location ids)).bind fun b =>
          (Limited.addBlock (.alternative keyword.1.location b index)).map fun id => [id]
    refine h.congr (fun d => ?_) (by simp only [Phrase.nodes]; omega)
    -- the scope around the branch is not checked, but the one of its condition lies deeper
    have hpos := condition.depth_pos
    simp only [FitsInside, Phrase.depth, true_and, and_true]
    omega

/-- **What a definition needs.** -/
theorem DefinitionPhrase.build_limited (p : DefinitionPhrase) :
    Limited (fun d => p.build { options with maxDepth := d }) (p.depth ≤ ·) p.nodes := by
  obtain ⟨place, subject⟩ := p
  cases subject with
  | function f =>
    have hbegin (header : Header) (signature : Signature) (opener : Token) :
        Limited (fun d => beginFunction { options with maxDepth := d } header signature opener)
          (1 ≤ ·) 2 := by
      have h := (Limited.addBlock (.scope .brace opener.location [])).bind fun body =>
        (Limited.define ⟨header.keyword.location, header.ident, header.place,
          header.ident.text == options.entry, 0, .function ⟨signature.requires, signature.returns,
            body, header.ident.text == options.entry⟩⟩).bind fun _ =>
          (Limited.checkDepth options opener 1).map fun _ => body
      exact h.congr (fun d => by simp) rfl
    have h := (Limited.checkName f.name.1).bind fun _ =>
      (hbegin (DefinitionPhrase.header ⟨place, .function f⟩) f.types f.opener.1).bind fun body =>
        (f.inside.build_limited options 1).bind fun ids => Limited.modifyBlock body (filled ids)
    refine h.congr (fun d => ?_) (by simp only [DefinitionPhrase.nodes]; omega)
    simp only [FitsInside, DefinitionPhrase.depth, true_and, and_true]
    omega
  | memory m =>
    have h := (Limited.checkName m.name.1).bind fun _ =>
      Limited.define ⟨m.keyword.1.location, m.name.1, placeToken ⟨place, .memory m⟩, false, 0,
        .memory m.capacity.1⟩
    exact h.congr (fun d => by simp [DefinitionPhrase.depth]) rfl
  | string t =>
    have h := (Limited.checkName t.name.1).bind fun _ =>
      Limited.define ⟨t.keyword.1.location, t.name.1, placeToken ⟨place, .string t⟩, false, 0,
        .string t.literal.1⟩
    exact h.congr (fun d => by simp [DefinitionPhrase.depth]) rfl

/-- **What definitions in a row need.** -/
theorem forM_build_limited (ds : List DefinitionPhrase) :
    Limited (fun d => ds.forM (DefinitionPhrase.build { options with maxDepth := d }))
      (unitDepth ds ≤ ·) (unitNodes ds) := by
  induction ds with
  | nil => exact (Limited.pure ()).congr (fun d => iff_of_true trivial (Nat.zero_le d)) rfl
  | cons p ds ih =>
    have h := (p.build_limited options).bind fun _ => ih
    exact h.congr (fun d => Nat.max_le.symm) rfl

end Phrases

/-! ## Texts -/

/-- **A text stops where building its definitions does.** -/
theorem Derives.parseChars_eq_error {source : List Char} {ds : List DefinitionPhrase}
    (h : Derives source ds) {options : ParseOptions} {store : Store} {e : ParseError}
    {w : Workspace}
    (hbuild : ds.forM (DefinitionPhrase.build options) ⟨store, [], 0⟩ = .error e w) :
    parseChars options store source = ⟨.error e, w.store⟩ := by
  obtain ⟨last, htokenize, -⟩ := h
  obtain ⟨-, htokens⟩ := tokenize_eq_ok.mp htokenize
  have hparse : parseTokens options (Lexer.ofChars source).run.tokens
      (Lexer.ofChars source).run.error ⟨store, [], 0⟩ = .error e w := by
    rw [htokens]
    refine bind_of_eq_error ?_ _
    change run options .definition _ _ = _
    rw [run_definitions]
    exact bind_of_eq_error hbuild _
  rw [parseChars, parseLexer, hparse]

/-- Definitions that can be built under some limits can be built in any store, if the limits are
high enough. -/
theorem exists_build {options : ParseOptions} {ds : List DefinitionPhrase} {store : Store}
    {w : Workspace} (h : ds.forM (DefinitionPhrase.build options) ⟨store, [], 0⟩ = .ok () w)
    (store' : Store) :
    ∃ maxDepth maxNodes w', ds.forM (DefinitionPhrase.build { options with maxDepth })
      ⟨store'.limited maxNodes, [], 0⟩ = .ok () w' := by
  -- the limits under which the names alone decide
  let length := (ds.flatMap DefinitionPhrase.tokens).length
  let maxDepth := max length (unitDepth ds)
  let maxNodes (store : Store) := store.size + max length (unitNodes ds)
  have hknows (store : Store) : Workspace.Knows ⟨store, [], 0⟩ [] := ⟨.nil, List.nodup_nil⟩
  have hdepth : length ≤ ({ options with maxDepth } : ParseOptions).maxDepth := Nat.le_max_left ..
  have hmeets (store : Store) := forM_build_meets hdepth ⟨store.limited (maxNodes store), [], 0⟩
    (hknows _) (Nat.add_le_add_left (Nat.le_max_left ..) store.size)
  have hbuilt := ((forM_build_limited options ds _ _ _ _ h).2 maxDepth (maxNodes store)).1
    ⟨Nat.le_max_right .., by simp only [maxNodes]; omega⟩
  have hnamed : WellNamed [] ds := ((hmeets store).2 _ _ hbuilt).1
  obtain ⟨_, w', hbuild⟩ := (hmeets store').1 hnamed
  exact ⟨maxDepth, maxNodes store', w', hbuild⟩

/-- **What limits make of a text that needs a depth and a number of nodes.** -/
structure ExactLimits (options : ParseOptions) (source : List Char) (depth nodes : Nat)
    (store : Store) (unit : List DefId) (after : Store) : Prop where
  /-- So many nodes are added. -/
  size_eq : after.size = store.size + nodes
  /-- Limits that grant the depth and the nodes change nothing about the outcome. -/
  granted : ∀ maxDepth maxNodes, depth ≤ maxDepth → nodes ≤ maxNodes - store.size →
    parseChars { options with maxDepth } (store.limited maxNodes) source =
      ⟨.ok unit, after.limited maxNodes⟩
  /-- Other limits are met, and the error says which. -/
  refused : ∀ maxDepth maxNodes, ¬ (depth ≤ maxDepth ∧ nodes ≤ maxNodes - store.size) →
    let parsed := parseChars { options with maxDepth } (store.limited maxNodes) source
    ∃ e, parsed.outcome = .error e ∧ e.IsLimit maxDepth maxNodes parsed.store
  /-- No limit of nodes is passed. -/
  size_le : ∀ maxDepth maxNodes, store.size ≤ maxNodes →
    (parseChars { options with maxDepth } (store.limited maxNodes) source).store.size ≤ maxNodes

/-- A text whose definitions can be built under some limits. -/
theorem Derives.exactLimits {options : ParseOptions} {source : List Char}
    {ds : List DefinitionPhrase} (hderives : Derives source ds) {store : Store} {depth nodes : Nat}
    {w : Workspace} (h : ds.forM (DefinitionPhrase.build { options with maxDepth := depth })
      ⟨store.limited nodes, [], 0⟩ = .ok () w) :
    ExactLimits options source (unitDepth ds) (unitNodes ds) store (w.symbols.map Prod.snd)
      w.store := by
  obtain ⟨hsize, hlimits⟩ := forM_build_limited options ds _ _ _ _ h
  have hgranted (maxDepth maxNodes : Nat) (hdepth : unitDepth ds ≤ maxDepth)
      (hnodes : unitNodes ds ≤ maxNodes - store.size) :
      parseChars { options with maxDepth } (store.limited maxNodes) source =
        ⟨.ok (w.symbols.map Prod.snd), w.store.limited maxNodes⟩ :=
    parseChars_eq_ok.mpr ⟨ds, w.limited maxNodes, hderives,
      (hlimits maxDepth maxNodes).1 ⟨hdepth, hnodes⟩, rfl, rfl⟩
  have hrefused (maxDepth maxNodes : Nat)
      (hnot : ¬ (unitDepth ds ≤ maxDepth ∧ unitNodes ds ≤ maxNodes - store.size)) :
      ∃ e after, parseChars { options with maxDepth } (store.limited maxNodes) source =
        ⟨.error e, after⟩ ∧ e.IsLimit maxDepth maxNodes after ∧
          after.size ≤ max store.size maxNodes := by
    have hstops : StopsAtLimit maxDepth maxNodes store.size
        (ds.forM (DefinitionPhrase.build { options with maxDepth })
          ⟨store.limited maxNodes, [], 0⟩) :=
      (hlimits maxDepth maxNodes).2 hnot
    cases hresult : ds.forM (DefinitionPhrase.build { options with maxDepth })
        ⟨store.limited maxNodes, [], 0⟩ with
    | ok u w₁ =>
      rw [hresult] at hstops
      exact hstops.elim
    | error e w₁ =>
      rw [hresult] at hstops
      exact ⟨e, w₁.store, hderives.parseChars_eq_error hresult, hstops⟩
  refine ⟨hsize, hgranted, fun maxDepth maxNodes hnot => ?_, fun maxDepth maxNodes hle => ?_⟩
  · obtain ⟨e, after, hparse, hlimit, -⟩ := hrefused maxDepth maxNodes hnot
    dsimp only
    rw [hparse]
    exact ⟨e, rfl, hlimit⟩
  · by_cases hfits : unitDepth ds ≤ maxDepth ∧ unitNodes ds ≤ maxNodes - store.size
    · rw [hgranted maxDepth maxNodes hfits.1 hfits.2]
      have hafter : (w.store.limited maxNodes).size = store.size + unitNodes ds := hsize
      rw [hafter]
      omega
    · obtain ⟨e, after, hparse, -, hafter⟩ := hrefused maxDepth maxNodes hfits
      rw [hparse]
      exact Nat.le_trans hafter (Nat.max_le.mpr ⟨hle, Nat.le_refl _⟩)

/-- **Limits are exact.** A text that is accepted under some limits is accepted under others exactly
if they grant the depth of its scopes and the number of its nodes, whatever the store holds
already. -/
theorem parseChars_exactLimits {options : ParseOptions} {store : Store} {source : List Char}
    {unit : List DefId} (h : (parseChars options store source).outcome = .ok unit) :
    ∃ ds, Derives source ds ∧ ∀ store', ∃ unit' after,
      ExactLimits options source (unitDepth ds) (unitNodes ds) store' unit' after := by
  have hparsed : parseChars options store source =
      ⟨.ok unit, (parseChars options store source).store⟩ := by rw [← h]
  obtain ⟨ds, w, hderives, hbuild, -⟩ := parseChars_eq_ok.mp hparsed
  refine ⟨ds, hderives, fun store' => ?_⟩
  obtain ⟨maxDepth, maxNodes, w', hbuild'⟩ := exists_build hbuild store'
  exact ⟨_, _, hderives.exactLimits hbuild'⟩

/-- A chain of two branches: the scope around the second counts as a level. -/
theorem exactLimits_chain :
    let source := "func f { if (1) { 2 } elif [0] { } }".toList
    let parsed := parseChars {} (Store.empty 100) source
    parsed.outcome = .ok [⟨0, 0⟩] ∧ ∃ ds, Derives source ds ∧ ∀ store', ∃ unit' after,
      ExactLimits {} source (unitDepth ds) (unitNodes ds) store' unit' after := by
  intro source parsed
  have h : parsed.outcome = .ok [⟨0, 0⟩] := by decide +kernel
  exact ⟨h, parseChars_exactLimits h⟩

end StackCompiler
