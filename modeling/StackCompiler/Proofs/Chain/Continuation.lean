import StackCompiler.Proofs.Chain.Alike

/-!
# Continuations of a branch

What follows the body of a branch is its continuation. It can stand anywhere inside a function: at
the end of a branch in the function's own body, or of one that lies inside scopes, conditions, loops
and other continuations. A continuation that begins with `elif` can be written out: `else`, and in
braces the branch with all that follows.

* `Position`, `UnitPosition`: where a continuation stands in a phrase and in a text.
* **`UnitPosition.build_plug`**: continuations that are built alike can be exchanged.
* `Phrase.writeOut`: a continuation that is written out.
* **`Phrase.build_writeOut`**: it is built as the one that begins with `elif`.
-/

namespace StackCompiler

/-! ## Positions -/

/-- **Where a continuation stands in a phrase.** -/
inductive Position : Nonterminal → Type where
  | here : Position .chain
  | nested (scope : Position .scope) : Position .block
  | branchCondition (keyword : Word (.keyword .condition)) (condition : Position .scope)
      (body : Phrase .scope) (chain : Phrase .chain) : Position .block
  | branchBody (keyword : Word (.keyword .condition)) (condition : Phrase .scope)
      (body : Position .scope) (chain : Phrase .chain) : Position .block
  | branchChain (keyword : Word (.keyword .condition)) (condition body : Phrase .scope)
      (chain : Position .chain) : Position .block
  | loopCondition (keyword : Word (.keyword .loop)) (condition : Position .scope)
      (body : Phrase .scope) : Position .block
  | loopBody (keyword : Word (.keyword .loop)) (condition : Phrase .scope)
      (body : Position .scope) : Position .block
  | consFirst (first : Position .block) (rest : Phrase .blocks) : Position .blocks
  | consRest (first : Phrase .block) (rest : Position .blocks) : Position .blocks
  | enclosed (bracket : Bracket) (opener : Word (.opening bracket)) (inside : Position .blocks)
      (closer : Word (.closing bracket)) : Position .scope
  | otherwise (keyword : Word (.keyword .otherwise)) (body : Position .scope) : Position .chain
  | elseIfCondition (keyword : Word (.keyword .elseIf)) (condition : Position .scope)
      (body : Phrase .scope) (chain : Phrase .chain) : Position .chain
  | elseIfBody (keyword : Word (.keyword .elseIf)) (condition : Phrase .scope)
      (body : Position .scope) (chain : Phrase .chain) : Position .chain
  | elseIfChain (keyword : Word (.keyword .elseIf)) (condition body : Phrase .scope)
      (chain : Position .chain) : Position .chain

namespace Position

/-- **The phrase with a continuation at a position.** -/
def plug (chain : Phrase .chain) : {n : Nonterminal} → Position n → Phrase n
  | _, .here => chain
  | _, .nested scope => .nested (scope.plug chain)
  | _, .branchCondition keyword condition body next =>
    .branch keyword (condition.plug chain) body next
  | _, .branchBody keyword condition body next => .branch keyword condition (body.plug chain) next
  | _, .branchChain keyword condition body next => .branch keyword condition body (next.plug chain)
  | _, .loopCondition keyword condition body => .loop keyword (condition.plug chain) body
  | _, .loopBody keyword condition body => .loop keyword condition (body.plug chain)
  | _, .consFirst first rest => .cons (first.plug chain) rest
  | _, .consRest first rest => .cons first (rest.plug chain)
  | _, .enclosed bracket opener inside closer =>
    .enclosed bracket opener (inside.plug chain) closer
  | _, .otherwise keyword body => .otherwise keyword (body.plug chain)
  | _, .elseIfCondition keyword condition body next =>
    .elseIf keyword (condition.plug chain) body next
  | _, .elseIfBody keyword condition body next => .elseIf keyword condition (body.plug chain) next
  | _, .elseIfChain keyword condition body next => .elseIf keyword condition body (next.plug chain)

/-- **The tokens of a continuation stand between those of the phrase around it.** -/
theorem tokens_plug {n : Nonterminal} (position : Position n) :
    ∃ before after, ∀ chain, (position.plug chain).tokens = before ++ (chain.tokens ++ after) := by
  induction position with
  | here => exact ⟨[], [], fun chain => (List.append_nil _).symm⟩
  | nested scope ih => exact ih
  | branchCondition keyword condition body next ih
  | elseIfCondition keyword condition body next ih =>
    obtain ⟨before, after, h⟩ := ih
    refine ⟨keyword.1 :: before, after ++ (body.tokens ++ next.tokens), fun chain => ?_⟩
    simp [plug, Phrase.tokens, h chain]
  | branchBody keyword condition body next ih | elseIfBody keyword condition body next ih =>
    obtain ⟨before, after, h⟩ := ih
    refine ⟨keyword.1 :: (condition.tokens ++ before), after ++ next.tokens, fun chain => ?_⟩
    simp [plug, Phrase.tokens, h chain]
  | branchChain keyword condition body next ih | elseIfChain keyword condition body next ih =>
    obtain ⟨before, after, h⟩ := ih
    refine ⟨keyword.1 :: (condition.tokens ++ (body.tokens ++ before)), after, fun chain => ?_⟩
    simp [plug, Phrase.tokens, h chain]
  | loopCondition keyword condition body ih =>
    obtain ⟨before, after, h⟩ := ih
    refine ⟨keyword.1 :: before, after ++ body.tokens, fun chain => ?_⟩
    simp [plug, Phrase.tokens, h chain]
  | loopBody keyword condition body ih =>
    obtain ⟨before, after, h⟩ := ih
    refine ⟨keyword.1 :: (condition.tokens ++ before), after, fun chain => ?_⟩
    simp [plug, Phrase.tokens, h chain]
  | consFirst first rest ih =>
    obtain ⟨before, after, h⟩ := ih
    refine ⟨before, after ++ rest.tokens, fun chain => ?_⟩
    simp [plug, Phrase.tokens, h chain]
  | consRest first rest ih =>
    obtain ⟨before, after, h⟩ := ih
    refine ⟨first.tokens ++ before, after, fun chain => ?_⟩
    simp [plug, Phrase.tokens, h chain]
  | enclosed bracket opener inside closer ih =>
    obtain ⟨before, after, h⟩ := ih
    refine ⟨opener.1 :: before, after ++ [closer.1], fun chain => ?_⟩
    simp [plug, Phrase.tokens, h chain]
  | otherwise keyword body ih =>
    obtain ⟨before, after, h⟩ := ih
    refine ⟨keyword.1 :: before, after, fun chain => ?_⟩
    simp [plug, Phrase.tokens, h chain]

/-- **Continuations that are built alike can be exchanged at any position.** -/
theorem build_plug {options : ParseOptions} {chain chain' : Phrase .chain}
    (h : ∀ depth, Alike (chain.build options depth) (chain'.build options depth))
    {n : Nonterminal} (position : Position n) (depth : Nat) :
    Alike ((position.plug chain).build options depth)
      ((position.plug chain').build options depth) := by
  have hself {n : Nonterminal} (p : Phrase n) (depth : Nat) :
      Alike (p.build options depth) (p.build options depth) := p.alike_self options depth
  induction position generalizing depth with
  | here => exact h depth
  | nested scope ih => exact (ih depth).map _
  | branchCondition keyword condition body next ih =>
    exact Alike.takeIndex.bind fun index => .addBranch _ _ index (ih depth) (hself body depth)
      (hself next depth)
  | branchBody keyword condition body next ih =>
    exact Alike.takeIndex.bind fun index => .addBranch _ _ index (hself condition depth) (ih depth)
      (hself next depth)
  | branchChain keyword condition body next ih =>
    exact Alike.takeIndex.bind fun index => .addBranch _ _ index (hself condition depth)
      (hself body depth) (ih depth)
  | loopCondition keyword condition body ih =>
    exact Alike.takeIndex.bind fun index => (ih depth).bind fun _ =>
      (hself body depth).bind fun _ => (Alike.addBlock (by rfl)).map _
  | loopBody keyword condition body ih =>
    exact Alike.takeIndex.bind fun index => (hself condition depth).bind fun _ =>
      (ih depth).bind fun _ => (Alike.addBlock (by rfl)).map _
  | consFirst first rest ih => exact (ih depth).bind fun _ => (hself rest depth).map _
  | consRest first rest ih => exact (hself first depth).bind fun _ => (ih depth).map _
  | enclosed bracket opener inside closer ih =>
    exact (Alike.checkDepth options opener.1 opener.1 (depth + 1)).bind fun _ =>
      (ih (depth + 1)).bind fun _ => .addBlock (by rfl)
  | otherwise keyword body ih =>
    exact Alike.takeIndex.bind fun index => (ih depth).bind fun _ => (Alike.addBlock (by rfl)).map _
  | elseIfCondition keyword condition body next ih =>
    exact Alike.takeIndex.bind fun index => Alike.takeIndex.bind fun inner =>
      (Alike.addBranch _ _ inner (ih (depth + 1)) (hself body (depth + 1))
        (hself next (depth + 1))).bind fun _ => (Alike.addBlock (by rfl)).bind fun _ =>
          (Alike.addBlock (by rfl)).map _
  | elseIfBody keyword condition body next ih =>
    exact Alike.takeIndex.bind fun index => Alike.takeIndex.bind fun inner =>
      (Alike.addBranch _ _ inner (hself condition (depth + 1)) (ih (depth + 1))
        (hself next (depth + 1))).bind fun _ => (Alike.addBlock (by rfl)).bind fun _ =>
          (Alike.addBlock (by rfl)).map _
  | elseIfChain keyword condition body next ih =>
    exact Alike.takeIndex.bind fun index => Alike.takeIndex.bind fun inner =>
      (Alike.addBranch _ _ inner (hself condition (depth + 1)) (hself body (depth + 1))
        (ih (depth + 1))).bind fun _ => (Alike.addBlock (by rfl)).bind fun _ =>
          (Alike.addBlock (by rfl)).map _

end Position

/-- **Where a continuation stands in a text**: inside a function, with definitions before and behind
it. The body of the function is that of the position. -/
structure UnitPosition where
  before : List DefinitionPhrase
  place : Option (Word (.keyword .inSection) × Word .identifier)
  function : FunctionPhrase
  position : Position .blocks
  after : List DefinitionPhrase

namespace UnitPosition

variable (u : UnitPosition)

/-- **The definitions with a continuation at a position.** -/
def plug (chain : Phrase .chain) : List DefinitionPhrase :=
  u.before ++
    ⟨u.place, .function { u.function with inside := u.position.plug chain }⟩ :: u.after

theorem tokens_plug : ∃ before after, ∀ chain,
    (u.plug chain).flatMap DefinitionPhrase.tokens = before ++ (chain.tokens ++ after) := by
  obtain ⟨before, after, h⟩ := u.position.tokens_plug
  refine ⟨u.before.flatMap DefinitionPhrase.tokens ++ (placeTokens u.place ++
    u.function.keyword.1 :: u.function.name.1 :: (parensTokens u.function.parens ++
      (u.function.signature.tokens ++ u.function.opener.1 :: before))),
    after ++ u.function.closer.1 :: u.after.flatMap DefinitionPhrase.tokens, fun chain => ?_⟩
  simp [plug, DefinitionPhrase.tokens, SubjectPhrase.tokens, h chain]

/-- **Continuations that are built alike can be exchanged in a text.** -/
theorem build_plug {options : ParseOptions} {chain chain' : Phrase .chain}
    (h : ∀ depth, Alike (chain.build options depth) (chain'.build options depth)) :
    Alike ((u.plug chain).forM (DefinitionPhrase.build options))
      ((u.plug chain').forM (DefinitionPhrase.build options)) := by
  obtain ⟨before, place, f, position, after⟩ := u
  let d (chain : Phrase .chain) : DefinitionPhrase :=
    ⟨place, .function { f with inside := position.plug chain }⟩
  have hfunction : Alike ((d chain).build options) ((d chain').build options) :=
    (Alike.checkName rfl).bind fun _ =>
      SubjectPhrase.build_function_alike rfl rfl rfl (position.build_plug h 1)
  induction before with
  | nil => exact hfunction.bind fun _ => definitions_alike_self after options
  | cons d before ih => exact (d.alike_self options).bind fun _ => ih

end UnitPosition

/-! ## Writing out -/

/-- A word of a fixed kind that stands in no text. -/
def fixedToken (kind : TokenKind) : Word kind := ⟨Token.ofKind kind .start, rfl⟩

/-- **A continuation that is written out**: `else`, and a branch in braces. -/
def Phrase.writeOut (condition body : Phrase .scope) (chain : Phrase .chain) : Phrase .chain :=
  .otherwise (fixedToken _) (.enclosed .brace (fixedToken _)
    (.cons (.branch (fixedToken _) condition body chain) .nil) (fixedToken _))

/-- A step that never succeeds. -/
def Fails {α : Type} (m : ParseM α) : Prop := ∀ w, seen (m w) = none

namespace Fails

variable {α β : Type} {m m' : ParseM α}

theorem alike (h : Fails m) (h' : Fails m') : Alike m m' := fun w w' _ => (h w).trans (h' w').symm

theorem bind (h : Fails m) (f : α → ParseM β) : Fails (m >>= f) := by
  intro w
  have hfirst := h w
  cases hr : m w with
  | ok a w' =>
    rw [hr] at hfirst
    cases hfirst
  | error e w' =>
    rw [bind_of_eq_error hr]
    rfl

theorem checkDepth {options : ParseOptions} {depth : Nat} (h : options.maxDepth < depth)
    (opener : Token) : Fails (checkDepth options opener depth) := by
  intro w
  rw [StackCompiler.checkDepth, if_pos h]
  rfl

end Fails

/-- **A branch behind `elif` is built as the one that is written out.** -/
theorem Phrase.build_writeOut (keyword : Word (.keyword .elseIf)) (condition body : Phrase .scope)
    (chain : Phrase .chain) (options : ParseOptions) (depth : Nat) :
    Alike ((Phrase.elseIf keyword condition body chain).build options depth)
      ((Phrase.writeOut condition body chain).build options depth) := by
  refine Alike.takeIndex.bind fun index => ?_
  by_cases hdeep : options.maxDepth < depth + 1
  · -- the scope around the branch lies too deep, and so does the one of its condition
    refine Fails.alike (fun w => ?_) (((Fails.checkDepth hdeep _).bind _).bind _)
    have hcondition : Fails (condition.build options (depth + 1)) := by
      cases condition with
      | enclosed bracket opener inside closer =>
        exact (Fails.checkDepth (Nat.lt_succ_of_lt hdeep) opener.1).bind _
    rw [bind_of_eq_ok (takeIndex_eq w)]
    exact ((hcondition.bind _).bind _) _
  · have hcheck (opener : Token) : checkDepth options opener (depth + 1) = pure () := if_neg hdeep
    simp only [Phrase.build, hcheck, pure_bind, bind_assoc, List.append_nil]
    refine Alike.takeIndex.bind fun inner => ?_
    refine (Alike.addBranch keyword.1 _ inner (condition.alike_self options _)
      (body.alike_self options _) (chain.alike_self options _)).bind fun ids => ?_
    exact (Alike.addBlock (by rfl)).bind fun body => (Alike.addBlock (by rfl)).map _

end StackCompiler
