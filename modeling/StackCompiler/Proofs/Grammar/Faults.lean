import StackCompiler.Syntax.Parse

/-!
# Faults of parsing

Parsing never invents a lexical error: the only one it reports is the one that stopped the lexer.

* `Grammatical`: steps of parsing that fail for reasons of grammar only.
* **`step_grammatical`**: reading a token is such a step.
* **`parseTokens_lexical`**: a lexical error of parsing is the error of the lexer.
-/

namespace StackCompiler

/-- Is it the fault of the lexer? -/
def ParseFault.isLexical : ParseFault → Bool
  | .lexical _ => true
  | _ => false

/-- **If the step fails, then not for a lexical reason.** -/
def Grammatical {α : Type} (m : ParseM α) : Prop :=
  ∀ w e w', m w = .error e w' → e.cause.isLexical = false

namespace Grammatical

section Laws

variable {α β : Type} {m : ParseM α} {f : α → ParseM β}

theorem bind (hm : Grammatical m) (hf : ∀ a, Grammatical (f a)) : Grammatical (m >>= f) := by
  intro w e w' h
  change EStateM.bind m f w = _ at h
  unfold EStateM.bind at h
  split at h
  · exact hf _ _ _ _ h
  · next heq =>
    cases h
    exact hm _ _ _ heq

theorem pure (a : α) : Grammatical (Pure.pure a) := fun _ _ _ h => by cases h

theorem get : Grammatical (MonadState.get : ParseM Workspace) := fun _ _ _ h => by cases h

theorem modify (f : Workspace → Workspace) : Grammatical (modify f : ParseM Unit) :=
  fun _ _ _ h => by cases h

theorem failAt (token : Token) {cause : ParseFault} (h : cause.isLexical = false) :
    Grammatical (failAt token cause : ParseM α) := by
  intro w e w' herror
  cases herror
  exact h

theorem reject (token : Token) (expected : Expectation) :
    Grammatical (reject token expected : ParseM α) := by
  unfold StackCompiler.reject
  split
  · exact failAt token rfl
  · exact failAt token rfl

theorem ite {p : Prop} [Decidable p] {m m' : ParseM α} (hm : Grammatical m)
    (hm' : Grammatical m') : Grammatical (if p then m else m') := by
  split
  · exact hm
  · exact hm'

end Laws

end Grammatical

open Grammatical

/-! ## Steps -/

theorem reserve_grammatical : Grammatical reserve := by
  refine get.bind fun w => ?_
  split
  · exact .pure _
  · intro w e w' h
    cases h
    rfl

theorem takeIndex_grammatical : Grammatical takeIndex := fun _ _ _ h => by cases h

theorem addBlock_grammatical (block : Block) : Grammatical (addBlock block) :=
  reserve_grammatical.bind fun _ _ _ _ h => by cases h

theorem addTo_grammatical (scope : OpenScope) (block : Block) :
    Grammatical (addTo scope block) :=
  (addBlock_grammatical block).bind fun _ => .pure _

theorem define_grammatical (d : Definition) : Grammatical (define d) :=
  reserve_grammatical.bind fun _ => .modify _

theorem closeChains_grammatical (finished : List BlockId) (chains : List Chain) :
    Grammatical (closeChains finished chains) := by
  induction chains generalizing finished with
  | nil => exact .pure _
  | cons chain outer ih =>
    refine (addBlock_grammatical _).bind fun body => ?_
    refine (addBlock_grammatical _).bind fun alternative => ?_
    exact (modify _).bind fun _ => ih _

theorem settle_grammatical (scope : OpenScope) : Grammatical (settle scope) :=
  (closeChains_grammatical _ _).bind fun _ => .pure _

section Definitions

variable (options : ParseOptions) (header : Header) (signature : Signature) (parens : Bool)
  (token : Token)

theorem beginDefinition_grammatical (place : Option Token) :
    Grammatical (beginDefinition place token) := by
  unfold beginDefinition
  split
  · exact .pure _
  · exact .reject _ _

theorem nameDefinition_grammatical (family : Family) (keyword place : Token) :
    Grammatical (nameDefinition family keyword place token) :=
  .ite (.reject _ _) (get.bind fun _ => .ite (.failAt _ rfl) (.pure _))

theorem openFunction_grammatical (opener : Token) :
    Grammatical (openFunction options header signature opener) := by
  refine (addBlock_grammatical _).bind fun body => ?_
  refine (define_grammatical _).bind fun _ => ?_
  exact .ite ((Grammatical.failAt _ rfl).bind fun _ => .pure _) (.pure _)

theorem endSignature_grammatical :
    Grammatical (endSignature options header signature parens token) :=
  .ite (.ite (.pure _) (.reject _ _))
    (.ite (openFunction_grammatical options header signature token) (.reject _ _))

theorem beginSignature_grammatical :
    Grammatical (beginSignature options header signature parens token) := by
  unfold beginSignature
  split
  · exact .pure _
  · exact .pure _
  · exact endSignature_grammatical options header signature parens token

theorem clauseType_grammatical (clause : Clause) (keyword : Token) (types : List Token) :
    Grammatical (clauseType options header signature parens clause keyword types token) :=
  .ite (.pure _) (.ite (.reject _ _)
    (.ite (.pure _) (endSignature_grammatical options header _ parens token)))

theorem endMemory_grammatical : Grammatical (endMemory header token) :=
  .ite ((define_grammatical _).bind fun _ => .pure _) (.reject _ _)

theorem endString_grammatical : Grammatical (endString header token) :=
  .ite ((define_grammatical _).bind fun _ => .pure _) (.reject _ _)

end Definitions

section Scopes

variable (options : ParseOptions) (scope : OpenScope) (token : Token)

theorem openScope_grammatical (purpose : Purpose) (bracket : Bracket) (opener : Token) :
    Grammatical (openScope options scope purpose bracket opener) :=
  .ite ((Grammatical.failAt _ rfl).bind fun _ => .pure _) (.pure _)

theorem closeScope_grammatical : Grammatical (closeScope scope) := by
  cases scope with
  | function interior body => exact (modify _).bind fun _ => .pure _
  | nested interior purpose outer =>
    refine (addBlock_grammatical _).bind fun id => ?_
    cases purpose with
    | plain => exact .pure _
    | branchCondition keyword index => exact .pure _
    | branchBody keyword index condition => exact (addBlock_grammatical _).bind fun _ => .pure _
    | alternative keyword index branch =>
      refine (addBlock_grammatical _).bind fun alternative => ?_
      refine (modify _).bind fun _ => ?_
      exact (settle_grammatical _).bind fun _ => .pure _
    | loopCondition keyword index => exact .pure _
    | loopBody keyword index condition => exact (addBlock_grammatical _).bind fun _ => .pure _

theorem reference_grammatical : Grammatical (reference scope token) := by
  refine get.bind fun w => ?_
  split
  · exact .failAt _ rfl
  · exact (modify _).bind fun _ => (addTo_grammatical _ _).bind fun _ => .pure _

theorem call_grammatical : Grammatical (call scope token) := by
  unfold call
  split
  · exact .failAt _ rfl
  · exact get.bind fun _ => .ite ((addTo_grammatical _ _).bind fun _ => .pure _) (.failAt _ rfl)

theorem beginBlock_grammatical : Grammatical (beginBlock options scope token) := by
  unfold beginBlock
  split
  · exact (addTo_grammatical _ _).bind fun _ => .pure _
  · exact (addTo_grammatical _ _).bind fun _ => .pure _
  · exact reference_grammatical scope token
  · exact call_grammatical scope token
  · exact .pure _
  · exact openScope_grammatical options scope _ _ token
  · exact takeIndex_grammatical.bind fun _ => .pure _
  · exact .failAt _ rfl
  · exact .failAt _ rfl
  · exact takeIndex_grammatical.bind fun _ => .pure _
  · exact .pure _
  · exact .failAt _ rfl

theorem inScope_grammatical : Grammatical (inScope options scope token) :=
  .ite (closeScope_grammatical scope) (.ite (.failAt _ rfl) (.ite (.failAt _ rfl)
    (.ite (.failAt _ rfl) (beginBlock_grammatical options scope token))))

theorem castType_grammatical (keyword : Token) (types : List Token) :
    Grammatical (castType options scope keyword types token) :=
  .ite (.pure _) (.ite (.reject _ _)
    ((addTo_grammatical _ _).bind fun _ => inScope_grammatical options _ token))

theorem endAssembly_grammatical (keyword : Token) :
    Grammatical (endAssembly scope keyword token) :=
  .ite ((addTo_grammatical _ _).bind fun _ => .pure _) (.reject _ _)

theorem afterBranch_grammatical (branch : BlockId) :
    Grammatical (afterBranch options scope branch token) := by
  unfold afterBranch
  split
  · exact takeIndex_grammatical.bind fun _ => .pure _
  · exact takeIndex_grammatical.bind fun _ => takeIndex_grammatical.bind fun _ => .pure _
  · exact (settle_grammatical _).bind fun _ => inScope_grammatical options _ token

theorem missing_isLexical (purpose : Purpose) (found : String) :
    (purpose.missing found).isLexical = false := by
  cases purpose <;> rfl

end Scopes

/-- **Reading a token fails for reasons of grammar only.** -/
theorem step_grammatical (options : ParseOptions) (state : ParseState) (token : Token) :
    Grammatical (step options state token) := by
  cases state with
  | definition =>
    exact .ite (.pure _) (.ite (.pure _)
      (.ite (beginDefinition_grammatical token none) (.failAt _ rfl)))
  | sectionName => exact .ite (.pure _) (.reject _ _)
  | definitionKeyword place => exact beginDefinition_grammatical token (some place)
  | definitionName family keyword place =>
    exact nameDefinition_grammatical token family keyword place
  | afterName header =>
    exact .ite (.pure _) (beginSignature_grammatical options header {} false token)
  | signature header signature parens =>
    exact beginSignature_grammatical options header signature parens token
  | clauseTypes header signature parens clause keyword types =>
    exact clauseType_grammatical options header signature parens token clause keyword types
  | capacity header => exact endMemory_grammatical header token
  | literal header => exact endString_grammatical header token
  | block scope => exact inScope_grammatical options scope token
  | castTypes scope keyword types => exact castType_grammatical options scope token keyword types
  | assemblyLine scope keyword => exact endAssembly_grammatical scope token keyword
  | opening scope purpose =>
    simp only [step]
    split
    · exact openScope_grammatical options scope purpose _ token
    · exact .failAt _ (missing_isLexical purpose _)
  | afterBranch scope branch => exact afterBranch_grammatical options scope token branch

/-! ## Runs -/

theorem run_grammatical (options : ParseOptions) (tokens : List Token) (state : ParseState) :
    Grammatical (tokens.foldlM (step options) state) := by
  induction tokens generalizing state with
  | nil => exact .pure _
  | cons token rest ih => exact (step_grammatical options state token).bind fun next => ih next

/-- **A lexical error of parsing is the one that stopped the lexer.** -/
theorem parseTokens_lexical {options : ParseOptions} {tokens : List Token} {error : Option LexError}
    {w w' : Workspace} {e : ParseError}
    (h : parseTokens options tokens error w = .error e w') (hlexical : e.cause.isLexical = true) :
    ∃ stopped, error = some stopped ∧ e.cause = .lexical stopped.cause := by
  cases error with
  | some stopped =>
    refine ⟨stopped, rfl, ?_⟩
    change EStateM.bind _ _ w = _ at h
    unfold EStateM.bind at h
    split at h
    · cases h
      rfl
    · next heq =>
      cases h
      rw [run_grammatical options tokens _ _ _ _ heq] at hlexical
      cases hlexical
  | none =>
    have hrun : Grammatical (parseTokens options tokens none) :=
      (run_grammatical options tokens _).bind fun _ => get.bind fun _ => .pure _
    rw [hrun _ _ _ h] at hlexical
    cases hlexical

end StackCompiler
