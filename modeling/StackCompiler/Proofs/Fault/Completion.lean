import StackCompiler.Proofs.Fault.Budget
import StackCompiler.Proofs.Token.Words

/-!
# Completions

Wherever parsing stands, some words lead to the end of what is open: brackets close the open scopes,
an empty body stands in for every one that is still to come, and a name that is not taken yet begins
a definition. So every text that has been read without an error goes on to a text that parses, unless
a limit is met.

* `ParseState.finish`: the words that complete a state.
* **`step_finish`**: one of these words.
* **`run_finish`**: all of them.
* `freshName`: a name that is not taken.
* **`Lexer.run_lines`**: words are read one after the other.
-/

namespace StackCompiler

/-! ## Words -/

/-- A kind, a value and a text. -/
abbrev Lexeme : Type := TokenKind × TokenValue × String

/-- A word of a fixed kind. -/
def fixedWord (kind : TokenKind) : Lexeme := (kind, .none, kind.spelling?.getD "")

/-- An identifier. -/
def nameWord (name : String) : Lexeme := (.identifier, .text name, name)

/-- The size of an empty memory region. -/
def sizeWord : Lexeme := (.number (.signed .w64), .int 0, "0")

/-- The empty string literal. -/
def quoteWord : Lexeme := (.string false, .bytes [], "\x22\x22")

/-- An empty scope. -/
def bodyWords : List Lexeme := [fixedWord (.opening .brace), fixedWord (.closing .brace)]

/-- A type, if there is none yet. -/
def typeWords (types : List Token) : List Lexeme :=
  if types.isEmpty then [fixedWord (.typeName (.number (.unsigned .w8)))] else []

/-- The end of a signature and a body. -/
def signatureWords (parens : Bool) : List Lexeme :=
  if parens then fixedWord (.closing .paren) :: bodyWords else bodyWords

/-- What is still to come after a nested scope. -/
def Purpose.finish : Purpose → List Lexeme
  | .branchCondition .. | .loopCondition .. => bodyWords
  | _ => []

/-- **The words that close the open scopes.** -/
def OpenScope.finish : OpenScope → List Lexeme
  | .function interior _ => [fixedWord (.closing interior.bracket)]
  | .nested interior purpose outer =>
    fixedWord (.closing interior.bracket) :: (purpose.finish ++ outer.finish)

/-- **The words that complete a state.** A definition that has no name yet takes the given one. -/
def ParseState.finish (name : String) : ParseState → List Lexeme
  | .definition => []
  | .sectionName => [nameWord name, fixedWord (.keyword .memory), nameWord name, sizeWord]
  | .definitionKeyword _ => [fixedWord (.keyword .memory), nameWord name, sizeWord]
  | .definitionName .function _ _ => nameWord name :: bodyWords
  | .definitionName .memory _ _ => [nameWord name, sizeWord]
  | .definitionName .string _ _ => [nameWord name, quoteWord]
  | .afterName _ => bodyWords
  | .signature _ _ parens => signatureWords parens
  | .clauseTypes _ _ parens _ _ types => typeWords types ++ signatureWords parens
  | .capacity _ => [sizeWord]
  | .literal _ => [quoteWord]
  | .block scope | .afterBranch scope _ => scope.finish
  | .castTypes scope _ types => typeWords types ++ scope.finish
  | .assemblyLine scope _ => quoteWord :: scope.finish
  | .opening scope purpose => bodyWords ++ (purpose.finish ++ scope.finish)

/-- Has the definition still to be named? -/
def ParseState.isNameless : ParseState → Bool
  | .sectionName | .definitionKeyword _ | .definitionName .. => true
  | _ => false

namespace OpenScope

variable (scope : OpenScope)

theorem finish_modify {f : Interior → Interior} (h : ∀ i, (f i).bracket = i.bracket) :
    (scope.modify f).finish = scope.finish := by
  cases scope <;> simp only [modify, finish, h]

@[simp] theorem finish_push (id : BlockId) : (scope.push id).finish = scope.finish :=
  scope.finish_modify fun i => by cases i.chains <;> rfl

theorem finish_eq_cons :
    scope.finish = fixedWord (.closing scope.interior.bracket) :: scope.finish.tail := by
  cases scope <;> rfl

end OpenScope

/-! ## Steps that fail at limits only -/

/-- **Unless a limit is met, the step succeeds**, with a result of some property. -/
def Proceeds {α : Type} (m : ParseM α) (P : α → Prop) : Prop :=
  ∀ w, match m w with
    | .ok a _ => P a
    | .error e _ => e.cause.isLimit = true

namespace Proceeds

variable {α β : Type} {P : α → Prop} {Q : β → Prop}

theorem bind {m : ParseM α} {k : α → ParseM β} (hm : Proceeds m P)
    (hk : ∀ a, P a → Proceeds (k a) Q) : Proceeds (m >>= k) Q := by
  intro w
  have hfirst := hm w
  cases hr : m w with
  | ok a w₁ =>
    rw [hr] at hfirst
    rw [bind_of_eq_ok hr]
    exact hk a hfirst w₁
  | error e w₁ =>
    rw [hr] at hfirst
    rw [bind_of_eq_error hr]
    exact hfirst

theorem pure {a : α} (h : P a) : Proceeds (Pure.pure a) P := fun _ => h

theorem modify (f : Workspace → Workspace) : Proceeds (modify f : ParseM Unit) fun _ => True :=
  fun _ => trivial

theorem reserve : Proceeds reserve fun _ => True := by
  intro w
  rw [reserve_apply]
  by_cases hfull : w.store.maxNodes ≤ w.store.size
  · rw [if_pos hfull]
    rfl
  · rw [if_neg hfull]
    trivial

theorem addBlock (block : Block) : Proceeds (addBlock block) fun _ => True :=
  reserve.bind fun _ _ _ => trivial

theorem define (d : Definition) : Proceeds (define d) fun _ => True :=
  reserve.bind fun _ _ => modify _

theorem checkDepth (options : ParseOptions) (opener : Token) (depth : Nat) :
    Proceeds (checkDepth options opener depth) fun _ => True := by
  intro w
  unfold StackCompiler.checkDepth
  by_cases hdeep : options.maxDepth < depth
  · rw [if_pos hdeep]
    rfl
  · rw [if_neg hdeep]
    trivial

theorem closeChains (finished : List BlockId) (chains : List Chain) :
    Proceeds (closeChains finished chains) fun _ => True := by
  induction chains generalizing finished with
  | nil => exact pure trivial
  | cons chain outer ih =>
    refine (addBlock _).bind fun body _ => (addBlock _).bind fun alternative _ => ?_
    exact (modify _).bind fun _ _ => ih [alternative]

theorem settle (scope : OpenScope) :
    Proceeds (settle scope) fun scope' =>
      scope'.finish = scope.finish ∧ scope'.interior.bracket = scope.interior.bracket := by
  refine (closeChains _ _).bind fun finished _ => pure ⟨?_, ?_⟩
  · exact scope.finish_modify fun _ => rfl
  · rw [OpenScope.interior_modify]

/-- **One more block in the innermost scope.** -/
theorem addTo (scope : OpenScope) (block : Block) :
    Proceeds (addTo scope block) fun scope' => ∃ id, scope' = scope.push id :=
  (addBlock block).bind fun id _ => pure ⟨id, rfl⟩

end Proceeds

/-! ## Completing a state -/

section Steps

variable {options : ParseOptions} {name : String} {scope : OpenScope} {token : Token}

/-- The state that a step leads to is completed by the remaining words. -/
abbrev LeavesWords (name : String) (m : ParseM ParseState) (words : List Lexeme) : Prop :=
  Proceeds m fun next => next.finish name = words ∧ next.isNameless = false

theorem serve_finish (id : BlockId) (purpose : Purpose) :
    LeavesWords name (serve scope id purpose) (purpose.finish ++ scope.finish) := by
  have hpush (id : BlockId) : (ParseState.block (scope.push id)).finish name = scope.finish :=
    scope.finish_push id
  cases purpose with
  | plain => exact .pure ⟨hpush id, rfl⟩
  | branchCondition keyword index => exact .pure ⟨rfl, rfl⟩
  | branchBody keyword index condition =>
    exact (Proceeds.addBlock _).bind fun branch _ => .pure ⟨hpush branch, rfl⟩
  | alternative keyword index branch =>
    refine (Proceeds.addBlock _).bind fun alternative _ => (Proceeds.modify _).bind fun _ _ => ?_
    refine (Proceeds.settle _).bind fun settled h => .pure ⟨?_, rfl⟩
    exact h.1.trans (scope.finish_push alternative)
  | loopCondition keyword index => exact .pure ⟨rfl, rfl⟩
  | loopBody keyword index condition =>
    exact (Proceeds.addBlock _).bind fun loop _ => .pure ⟨hpush loop, rfl⟩

/-- **The closing bracket of the innermost scope.** -/
theorem inScope_finish (hkind : token.kind = .closing scope.interior.bracket) :
    LeavesWords name (inScope options scope token) scope.finish.tail := by
  rw [inScope_of_closing options scope hkind]
  cases scope with
  | function interior body => exact (Proceeds.modify _).bind fun _ _ => .pure ⟨rfl, rfl⟩
  | nested interior purpose outer =>
    rw [closeScope_nested]
    exact (Proceeds.addBlock _).bind fun id _ => serve_finish id purpose

theorem openScope_finish (purpose : Purpose) (bracket : Bracket) :
    LeavesWords name (openScope options scope purpose bracket token)
      (fixedWord (.closing bracket) :: (purpose.finish ++ scope.finish)) := by
  rw [openScope_eq]
  exact (Proceeds.checkDepth options token _).bind fun _ _ => .pure ⟨rfl, rfl⟩

theorem openFunction_finish (header : Header) (signature : Signature) :
    LeavesWords name (openFunction options header signature token)
      [fixedWord (.closing .brace)] := by
  rw [openFunction_eq, beginFunction, bind_assoc]
  refine (Proceeds.addBlock _).bind fun body _ => ?_
  rw [bind_assoc]
  refine (Proceeds.define _).bind fun _ _ => ?_
  rw [bind_assoc]
  exact (Proceeds.checkDepth options token 1).bind fun _ _ => .pure ⟨rfl, rfl⟩

/-- **The first word behind a signature.** -/
theorem endSignature_finish (header : Header) (signature : Signature) {parens : Bool} {word : Lexeme}
    {words : List Lexeme} (h : signatureWords parens = word :: words) (htoken : token.word = word) :
    LeavesWords name (endSignature options header signature parens token) words := by
  subst htoken
  cases parens with
  | true =>
    obtain ⟨hword, rfl⟩ := List.cons.inj h
    have hkind : token.kind = .closing .paren := (congrArg Prod.fst hword).symm
    rw [endSignature, if_pos rfl, if_pos hkind]
    exact .pure ⟨rfl, rfl⟩
  | false =>
    obtain ⟨hword, rfl⟩ := List.cons.inj h
    have hkind : token.kind = .opening .brace := (congrArg Prod.fst hword).symm
    rw [endSignature, if_neg (by simp), if_pos hkind]
    exact openFunction_finish header signature

theorem kind_of_signatureWords {parens : Bool} {words : List Lexeme}
    (h : signatureWords parens = token.word :: words) : EndsSignature token := by
  cases parens with
  | true => exact .inl (congrArg Prod.fst (List.cons.inj h).1).symm
  | false => exact .inr (congrArg Prod.fst (List.cons.inj h).1).symm

/-- A type, if there is none yet, or else what follows the types. -/
theorem typeWords_append {types : List Token} {rest words : List Lexeme}
    (h : typeWords types ++ rest = token.word :: words) :
    (types.isEmpty = true ∧ token.kind.isType = true ∧ words = rest) ∨
      (types.isEmpty = false ∧ rest = token.word :: words) := by
  cases hempty : types.isEmpty with
  | true =>
    rw [typeWords, if_pos hempty] at h
    obtain ⟨hword, rfl⟩ := List.cons.inj h
    have hkind : token.kind = .typeName (.number (.unsigned .w8)) := (congrArg Prod.fst hword).symm
    exact .inl ⟨rfl, by rw [hkind]; rfl, rfl⟩
  | false =>
    rw [typeWords, if_neg (by simp [hempty])] at h
    exact .inr ⟨rfl, h⟩

theorem typeWords_of_ne (types : List Token) (token : Token) : typeWords (types ++ [token]) = [] := by
  rw [typeWords, if_neg (by simp)]

theorem clauseType_finish (header : Header) (signature : Signature) (parens : Bool) (clause : Clause)
    (keyword : Token) (types : List Token) {words : List Lexeme}
    (h : typeWords types ++ signatureWords parens = token.word :: words) :
    LeavesWords name (clauseType options header signature parens clause keyword types token)
      words := by
  rcases typeWords_append h with ⟨-, htype, rfl⟩ | ⟨hne, h⟩
  · rw [clauseType, if_pos htype]
    refine .pure ⟨?_, rfl⟩
    rw [ParseState.finish, typeWords_of_ne, List.nil_append]
  · have hends := kind_of_signatureWords h
    have htypes : types ≠ [] := by simpa using hne
    have htype : ¬ token.kind.isType = true := by
      rcases hends with hk | hk <;> rw [hk] <;> simp [TokenKind.isType]
    have hreturns : ¬ (clause = .requires ∧ token.kind = .keyword .returns) := by
      rcases hends with hk | hk <;> simp [hk]
    rw [clauseType, if_neg htype, if_neg (by simpa using htypes), if_neg hreturns]
    exact endSignature_finish header _ h rfl

theorem castType_finish (keyword : Token) (types : List Token) {words : List Lexeme}
    (h : typeWords types ++ scope.finish = token.word :: words) :
    LeavesWords name (castType options scope keyword types token) words := by
  rcases typeWords_append h with ⟨-, htype, rfl⟩ | ⟨hne, h⟩
  · rw [castType, if_pos htype]
    refine .pure ⟨?_, rfl⟩
    rw [ParseState.finish, typeWords_of_ne, List.nil_append]
  · rw [scope.finish_eq_cons] at h
    obtain ⟨hword, rfl⟩ := List.cons.inj h
    have hkind : token.kind = .closing scope.interior.bracket := (congrArg Prod.fst hword).symm
    have htypes : types ≠ [] := by simpa using hne
    rw [castType, if_neg (by simp [hkind, TokenKind.isType]), if_neg (by simpa using htypes)]
    refine (Proceeds.addTo _ _).bind fun _ hscope => ?_
    obtain ⟨id, rfl⟩ := hscope
    rw [← scope.finish_push id]
    refine inScope_finish (hkind.trans ?_)
    rw [OpenScope.push, OpenScope.interior_modify]
    cases scope.interior.chains <;> rfl

theorem afterBranch_finish (branch : BlockId)
    (hkind : token.kind = .closing scope.interior.bracket) :
    LeavesWords name (afterBranch options scope branch token) scope.finish.tail := by
  rw [afterBranch_of_ne options scope branch (by simp [hkind]) (by simp [hkind])]
  refine (Proceeds.settle scope).bind fun settled h => ?_
  rw [← h.1]
  exact inScope_finish (by rw [hkind, h.2])

/-- **The next word of a state with a name leads to a state that the other words complete.** -/
theorem step_finish {state : ParseState} (hnamed : state.isNameless = false) {words : List Lexeme}
    (h : state.finish name = token.word :: words) :
    LeavesWords name (step options state token) words := by
  have hfirst {word : Lexeme} {rest : List Lexeme} (h : word :: rest = token.word :: words) :
      token.kind = word.1 ∧ words = rest := by
    obtain ⟨hword, rfl⟩ := List.cons.inj h
    exact ⟨(congrArg Prod.fst hword).symm, rfl⟩
  cases state with
  | definition | sectionName | definitionKeyword | definitionName => first | cases h | cases hnamed
  | afterName header =>
    have hkind : token.kind = .opening .brace := (hfirst h).1
    rw [step, if_neg (by simp [hkind]), beginSignature_of_ne options header _ _ (by simp [hkind])
      (by simp [hkind])]
    exact endSignature_finish header {} (show signatureWords false = _ from h) rfl
  | signature header signature parens =>
    have hends := kind_of_signatureWords h
    have hne : token.kind ≠ .keyword .requires ∧ token.kind ≠ .keyword .returns := by
      rcases hends with hk | hk <;> simp [hk]
    rw [step, beginSignature_of_ne options header _ _ hne.1 hne.2]
    exact endSignature_finish header signature h rfl
  | clauseTypes header signature parens clause keyword types =>
    exact clauseType_finish header signature parens clause keyword types h
  | capacity header =>
    obtain ⟨hword, rfl⟩ := List.cons.inj h
    have hsize : isCapacity token = true := by
      refine (isCapacity_iff token).mpr (.inr ⟨.w64, 0, ?_, ?_, Int.le_refl 0⟩)
      · exact (congrArg Prod.fst hword).symm
      · exact (congrArg (·.2.1) hword).symm
    rw [step, endMemory, if_pos hsize]
    exact (Proceeds.define _).bind fun _ _ => .pure ⟨rfl, rfl⟩
  | literal header =>
    obtain ⟨hkind, rfl⟩ := hfirst h
    rw [step, endString, if_pos (by rw [hkind]; rfl)]
    exact (Proceeds.define _).bind fun _ _ => .pure ⟨rfl, rfl⟩
  | block scope =>
    obtain ⟨hkind, rfl⟩ := hfirst (scope.finish_eq_cons.symm.trans h)
    exact inScope_finish hkind
  | castTypes scope keyword types => exact castType_finish keyword types h
  | assemblyLine scope keyword =>
    obtain ⟨hkind, rfl⟩ := hfirst h
    rw [step, endAssembly, if_pos (by rw [hkind]; rfl)]
    refine (Proceeds.addTo scope _).bind fun _ hscope => ?_
    obtain ⟨id, rfl⟩ := hscope
    exact .pure ⟨scope.finish_push id, rfl⟩
  | opening scope purpose =>
    obtain ⟨hkind, rfl⟩ := hfirst h
    have hopens : token.kind.opens? = some .brace := by
      rw [hkind]
      rfl
    simp only [step, hopens]
    exact openScope_finish purpose .brace
  | afterBranch scope branch =>
    obtain ⟨hkind, rfl⟩ := hfirst (scope.finish_eq_cons.symm.trans h)
    exact afterBranch_finish branch hkind

/-- A state without a name goes on if the name is free. -/
theorem step_finish_nameless {state : ParseState} (hnameless : state.isNameless = true)
    {words : List Lexeme} (h : state.finish name = token.word :: words) {w : Workspace}
    (hname : w.symbols.lookup name = none) :
    ∃ next, step options state token w = .ok next w ∧ next.finish name = words := by
  cases state with
  | sectionName =>
    obtain ⟨hword, rfl⟩ := List.cons.inj h
    have hkind : token.kind = .identifier := (congrArg Prod.fst hword).symm
    exact ⟨.definitionKeyword token, by rw [step, if_pos hkind]; rfl, rfl⟩
  | definitionKeyword place =>
    obtain ⟨hword, rfl⟩ := List.cons.inj h
    have hfamily : Family.ofKind? token.kind = some .memory := by
      rw [show token.kind = .keyword .memory from (congrArg Prod.fst hword).symm]
      rfl
    exact ⟨_, by rw [step, beginDefinition, hfamily]; rfl, rfl⟩
  | definitionName family keyword place =>
    have hword : token.word = nameWord name := by
      cases family <;> exact (List.cons.inj h).1.symm
    have hkind : token.kind = .identifier := congrArg Prod.fst hword
    have htext : token.text = name := congrArg (·.2.2) hword
    rw [step, nameDefinition_eq family keyword place ⟨token, hkind⟩]
    have hcheck : checkName token w = .ok () w := checkName_eq_ok.mpr ⟨htext ▸ hname, rfl⟩
    refine ⟨_, bind_eq_ok.mpr ⟨(), w, hcheck, rfl⟩, ?_⟩
    cases family <;> exact (List.cons.inj h).2
  | _ => cases hnameless

end Steps

theorem eq_definition_of_finish {name : String} {state : ParseState} (h : state.finish name = []) :
    state = .definition := by
  cases state with
  | definition => rfl
  | definitionName family => cases family <;> cases h
  | signature _ _ parens => cases parens <;> cases h
  | clauseTypes _ _ parens =>
    have hnil := (List.append_eq_nil_iff.mp h).2
    cases parens <;> cases hnil
  | castTypes scope _ _ =>
    have hnil := (List.append_eq_nil_iff.mp h).2
    rw [scope.finish_eq_cons] at hnil
    cases hnil
  | block scope | afterBranch scope _ =>
    rw [ParseState.finish, scope.finish_eq_cons] at h
    cases h
  | _ => cases h

/-- **The words of a state complete it**: only a limit can stop them. -/
theorem run_finish {options : ParseOptions} {name : String} {state : ParseState}
    {tokens : List Token} (htokens : tokens.map Token.word = state.finish name) {last : Token}
    (hlast : last.kind = .eof) {w w' : Workspace}
    (hname : state.isNameless = true → w.symbols.lookup name = none) {e : ParseError}
    (h : run options state (tokens ++ [last]) w = .error e w') : e.cause.isLimit = true := by
  induction tokens generalizing state w with
  | nil =>
    obtain rfl := eq_definition_of_finish htokens.symm
    have hstep : step options .definition last = pure .definition := by
      rw [step, if_pos (by rw [hlast]; rfl)]
    rw [List.nil_append, run_cons, hstep] at h
    cases h
  | cons token rest ih =>
    rw [List.cons_append, run_cons] at h
    cases hnameless : state.isNameless with
    | true =>
      obtain ⟨next, hstep, hnext⟩ : ∃ next, step options state token w = .ok next w ∧
          next.finish name = rest.map Token.word :=
        step_finish_nameless hnameless htokens.symm (hname hnameless)
      rw [bind_of_eq_ok hstep] at h
      exact ih hnext.symm (fun _ => hname hnameless) h
    | false =>
      have hleaves : LeavesWords name (step options state token) (rest.map Token.word) :=
        step_finish hnameless htokens.symm
      have hstep := hleaves w
      cases hr : step options state token w with
      | ok next w₁ =>
        rw [hr] at hstep
        rw [bind_of_eq_ok hr] at h
        exact ih hstep.1.symm (fun hnext => by rw [hstep.2] at hnext; cases hnext) h
      | error e₁ w₁ =>
        rw [hr] at hstep
        rw [bind_of_eq_error hr] at h
        cases h
        exact hstep

/-! ## Names that are not taken -/

/-- A name longer than some others. -/
def freshName (names : List String) : String :=
  String.ofList (List.replicate ((names.flatMap String.toList).length + 1) '_')

theorem freshName_notMem (names : List String) : freshName names ∉ names := by
  intro h
  have hle : (freshName names).toList.length ≤ (names.flatMap String.toList).length := by
    rw [List.flatMap_def]
    exact (List.sublist_flatten_of_mem (List.mem_map_of_mem h)).length_le
  rw [freshName, String.toList_ofList, List.length_replicate] at hle
  exact Nat.not_succ_le_self _ hle

theorem lookup_freshName (symbols : List (String × DefId)) :
    symbols.lookup (freshName (symbols.map Prod.fst)) = none := by
  rw [List.lookup_eq_none_iff]
  intro symbol hsymbol
  rw [bne_iff_ne]
  intro heq
  have hmem := List.mem_map_of_mem (f := Prod.fst) hsymbol
  rw [← heq] at hmem
  exact freshName_notMem _ hmem

/-- No fixed word is made of underscores. -/
theorem ofSpelling?_replicate (n : Nat) :
    TokenKind.ofSpelling? (String.ofList (List.replicate (n + 1) '_')) = none := by
  have hreserved : ∀ entry ∈ TokenKind.reserved, '_' ∉ entry.1.toList := by decide
  rw [Option.eq_none_iff_forall_ne_some]
  intro kind h
  refine hreserved _ (mem_of_searchSorted h) ?_
  simp

/-! ## Reading the words -/

/-- **A word by itself is read as a token.** -/
structure Legible (word : Lexeme) : Prop where
  text_ne : word.2.2.toList ≠ []
  begins : beginsTrivia word.2.2.toList = false
  scans : scanToken (.start word.2.2.toList) = .ok (word.1, word.2.1) ⟨word.2.2.toList.length, []⟩
  kind_ne : word.1 ≠ .eof

/-- A word of a kind of its own is read if it is the first token of its text. -/
theorem legible_of_run {word : Lexeme} (hkind : word.1 ≠ .eof)
    (h : ((Lexer.ofChars word.2.2.toList).run.tokens.map Token.word).head? = some word) :
    Legible word := by
  rw [List.head?_map, Option.map_eq_some_iff] at h
  obtain ⟨token, htoken, rfl⟩ := h
  obtain ⟨rest, htokens⟩ := List.head?_eq_some_iff.mp htoken
  obtain ⟨gap, after, hread, -⟩ := Lexer.reads_of_run rfl htokens
  -- the token is the whole text, so nothing stands before it or behind it
  have hlength := congrArg List.length hread.input
  simp only [Lexer.ofChars, Token.word, List.length_append] at hlength
  have hafter : after.input = [] := List.eq_nil_of_length_eq_zero (by omega)
  have hbegins := hread.begins
  have hscans := hread.scans
  rw [hafter, List.append_nil] at hbegins hscans
  exact ⟨hread.text_ne_nil hkind, hbegins, hscans, hkind⟩

theorem legible_nameWord (names : List String) : Legible (nameWord (freshName names)) := by
  obtain ⟨n, hname⟩ : ∃ n, freshName names = String.ofList (List.replicate (n + 1) '_') := ⟨_, rfl⟩
  have hword : IsWord (List.replicate (n + 1) '_') := by
    refine ⟨⟨'_', _, List.replicate_succ, by decide +kernel⟩, fun c hc => ?_⟩
    rw [List.eq_of_mem_replicate hc]
    decide +kernel
  have hend : AtEnd [] := trivial
  have hbegins := hword.begins []
  have hscan := hword.scanToken hend
  rw [List.append_nil] at hbegins hscan
  rw [wordToken, ofSpelling?_replicate] at hscan
  refine ⟨by simp [nameWord, hname], ?_, ?_, by simp [nameWord]⟩
  · simpa only [nameWord, hname, String.toList_ofList] using hbegins
  · simpa only [nameWord, hname, String.toList_ofList] using hscan

theorem legible_closing (bracket : Bracket) : Legible (fixedWord (.closing bracket)) := by
  cases bracket <;> exact legible_of_run (by decide) (by decide +kernel)

theorem legible_bodyWords : ∀ word ∈ bodyWords, Legible word := by
  refine List.forall_mem_cons.mpr ⟨?_, List.forall_mem_singleton.mpr (legible_closing .brace)⟩
  exact legible_of_run (by decide) (by decide +kernel)

theorem legible_sizeWord : Legible sizeWord := legible_of_run (by decide) (by decide +kernel)

theorem legible_quoteWord : Legible quoteWord := legible_of_run (by decide) (by decide +kernel)

theorem legible_memory : Legible (fixedWord (.keyword .memory)) :=
  legible_of_run (by decide) (by decide +kernel)

theorem legible_typeWords (types : List Token) : ∀ word ∈ typeWords types, Legible word := by
  rw [typeWords]
  split
  · exact List.forall_mem_singleton.mpr (legible_of_run (by decide) (by decide +kernel))
  · simp

theorem legible_signatureWords (parens : Bool) : ∀ word ∈ signatureWords parens, Legible word := by
  cases parens with
  | true => exact List.forall_mem_cons.mpr ⟨legible_closing .paren, legible_bodyWords⟩
  | false => exact legible_bodyWords

theorem Purpose.legible_finish (purpose : Purpose) : ∀ word ∈ purpose.finish, Legible word := by
  cases purpose with
  | branchCondition | loopCondition => exact legible_bodyWords
  | _ => simp [Purpose.finish]

theorem OpenScope.legible_finish (scope : OpenScope) : ∀ word ∈ scope.finish, Legible word := by
  induction scope with
  | function interior block => exact List.forall_mem_singleton.mpr (legible_closing _)
  | nested interior purpose outer ih =>
    exact List.forall_mem_cons.mpr ⟨legible_closing _,
      List.forall_mem_append.mpr ⟨purpose.legible_finish, ih⟩⟩

/-- **The words that complete a state are read as they are meant.** -/
theorem ParseState.legible_finish (state : ParseState) (names : List String) :
    ∀ word ∈ state.finish (freshName names), Legible word := by
  have hname := legible_nameWord names
  cases state with
  | definition => simp [finish]
  | sectionName => simp [finish, hname, legible_memory, legible_sizeWord]
  | definitionKeyword place => simp [finish, hname, legible_memory, legible_sizeWord]
  | definitionName family keyword place =>
    cases family with
    | function => exact List.forall_mem_cons.mpr ⟨hname, legible_bodyWords⟩
    | memory => simp [finish, hname, legible_sizeWord]
    | string => simp [finish, hname, legible_quoteWord]
  | afterName header => exact legible_bodyWords
  | signature header signature parens => exact legible_signatureWords parens
  | clauseTypes header signature parens clause keyword types =>
    exact List.forall_mem_append.mpr ⟨legible_typeWords types, legible_signatureWords parens⟩
  | capacity header => exact List.forall_mem_singleton.mpr legible_sizeWord
  | literal header => exact List.forall_mem_singleton.mpr legible_quoteWord
  | block scope | afterBranch scope branch => exact scope.legible_finish
  | castTypes scope keyword types =>
    exact List.forall_mem_append.mpr ⟨legible_typeWords types, scope.legible_finish⟩
  | assemblyLine scope keyword =>
    exact List.forall_mem_cons.mpr ⟨legible_quoteWord, scope.legible_finish⟩
  | opening scope purpose =>
    exact List.forall_mem_append.mpr ⟨legible_bodyWords,
      List.forall_mem_append.mpr ⟨purpose.legible_finish, scope.legible_finish⟩⟩

/-- Words, each on a line of its own. -/
def lines (words : List Lexeme) : List Char := words.flatMap fun word => word.2.2.toList ++ ['\n']

namespace Lexer

/-- A word is read behind a gap if it is scanned there. -/
theorem reads_of_scan {lexer : Lexer} {gap rest : List Char} {word : Lexeme}
    (hgap : IsGap (word.2.2.toList ++ rest) gap)
    (hbegins : beginsTrivia (word.2.2.toList ++ rest) = false)
    (hscan : scanToken (.start (word.2.2.toList ++ rest)) =
      .ok (word.1, word.2.1) ⟨word.2.2.toList.length, rest⟩)
    (hinput : lexer.input = gap ++ (word.2.2.toList ++ rest)) :
    ∃ token after, lexer.Reads gap token after ∧ token.word = word ∧ after.input = rest :=
  ⟨⟨word.1, lexer.location.advanceBy gap, lexer.count, word.2.1, word.2.2⟩,
    ⟨rest, lexer.location.advanceBy (gap ++ word.2.2.toList), lexer.count + 1, lexer.pending⟩,
    ⟨hinput, hgap, hbegins, hscan, rfl, rfl, rfl, rfl, rfl⟩, rfl, rfl⟩

/-- A word that can be read by itself is read where a word may end. -/
theorem reads_of_legible {lexer : Lexer} {gap rest : List Char} {word : Lexeme}
    (hword : Legible word) (hgap : IsGap (word.2.2.toList ++ rest) gap) (hrest : AtEnd rest)
    (hinput : lexer.input = gap ++ (word.2.2.toList ++ rest)) :
    ∃ token after, lexer.Reads gap token after ∧ token.word = word ∧ after.input = rest := by
  have hscans : scanToken (.start (word.2.2.toList ++ [])) =
      .ok (word.1, word.2.1) ⟨word.2.2.toList.length, []⟩ := by
    rw [List.append_nil]
    exact hword.scans
  refine reads_of_scan hgap ?_ (scanToken_local hword.text_ne hscans fun _ => hrest) hinput
  rw [beginsTrivia_of_scanToken hword.text_ne hscans, List.append_nil]
  exact hword.begins

/-- **Words on lines of their own are read one after the other**, up to the end of input. -/
theorem run_lines {lexer : Lexer} (hpending : lexer.pending = none) {gap : List Char}
    (hgap : ∀ rest, IsGap rest gap) {words : List Lexeme} (hwords : ∀ word ∈ words, Legible word)
    (hinput : lexer.input = gap ++ lines words) :
    lexer.run.error = none ∧ ∃ tokens last, lexer.run.tokens = tokens ++ [last] ∧
      tokens.map Token.word = words ∧ last.kind = .eof := by
  induction words generalizing lexer gap with
  | nil =>
    have hread : lexer.Reads gap ⟨.eof, lexer.location.advanceBy gap, lexer.count, .none, ""⟩
        ⟨[], lexer.location.advanceBy (gap ++ []), lexer.count + 1, lexer.pending⟩ :=
      ⟨hinput, hgap _, rfl, rfl, rfl, rfl, rfl, rfl, rfl⟩
    rw [run_of_reads hpending hread, if_pos rfl]
    exact ⟨rfl, [], _, rfl, rfl, rfl⟩
  | cons word words ih =>
    obtain ⟨hword, hwords⟩ := List.forall_mem_cons.mp hwords
    have hsplit : lexer.input = gap ++ (word.2.2.toList ++ ('\n' :: lines words)) := by
      rw [hinput, lines, lines, List.flatMap_cons, List.append_assoc]
      rfl
    have hend : AtEnd ('\n' :: lines words) := by simp [AtEnd, isTerminator, isBlank]
    obtain ⟨token, after, hread, htoken, hafter⟩ := reads_of_legible hword (hgap _) hend hsplit
    have hkind : token.kind ≠ .eof := fun h => hword.kind_ne (htoken ▸ h)
    have hnewline : ∀ rest, IsGap rest ['\n'] := fun _ => .blank rfl .nil
    obtain ⟨herror, tokens, last, htokens, hmap, hlast⟩ :=
      ih (hread.pending.trans hpending) hnewline hwords hafter
    rw [run_of_reads hpending hread, if_neg hkind]
    refine ⟨herror, token :: tokens, last, ?_, ?_, hlast⟩
    · rw [htokens]
      rfl
    · rw [List.map_cons, htoken, hmap]

end Lexer

end StackCompiler
