import StackCompiler.Proofs.Grammar.Recognition
import StackCompiler.Proofs.Layout.Mirror

/-!
# Runs with room

One node for every token is enough: what a construct needs at its end is set aside while its tokens
are read. One level for every token is enough, too. So with that much room no limit is met, and every
error points at the token that was read, or at the bracket of a scope that is never closed.

* `openBrackets`: the brackets that tokens leave open.
* `ParseState.owed`: the nodes that are still to be added for what is open.
* `Spends`: steps within a number of nodes.
* **`step_spends`**: reading a token costs one node.
* **`run_spends`**: reading tokens in a row.
-/

namespace StackCompiler

/-! ## What is open -/

/-- The open brackets after one more token, the innermost first. -/
def bracketsAfter (brackets : List Token) (token : Token) : List Token :=
  match token.kind with
  | .opening _ => token :: brackets
  | .closing _ => brackets.tail
  | _ => brackets

/-- **The brackets that tokens leave open**, the innermost first. -/
def openBrackets (tokens : List Token) : List Token := tokens.foldl bracketsAfter []

/-- The nodes that closing a nested scope adds beside its own and that of its token. -/
def Purpose.credit : Purpose → Nat
  | .branchBody .. => 1
  | _ => 0

namespace OpenScope

/-- The brackets of the open scopes, the innermost first. -/
def openers : OpenScope → List Token
  | .function interior _ => [interior.opener]
  | .nested interior _ outer => interior.opener :: outer.openers

/-- The highest level of the open scopes. -/
def peak : OpenScope → Nat
  | .function interior _ => interior.depth + interior.chains.length
  | .nested interior _ outer => max (interior.depth + interior.chains.length) outer.peak

/-- **The nodes set aside for the end of the open scopes.** A chain ends with two nodes. -/
def owed : OpenScope → Nat
  | .function interior _ => 2 * interior.chains.length
  | .nested interior purpose outer =>
    2 * interior.chains.length + 1 + purpose.credit + outer.owed

variable (scope : OpenScope)

/-- The innermost scope changes, but neither its bracket, nor its depth, nor its chains. -/
theorem modify_keeps {f : Interior → Interior} (hopener : ∀ i, (f i).opener = i.opener)
    (hdepth : ∀ i, (f i).depth = i.depth)
    (hchains : ∀ i, (f i).chains.length = i.chains.length) :
    (scope.modify f).openers = scope.openers ∧ (scope.modify f).owed = scope.owed ∧
      (scope.modify f).peak = scope.peak := by
  cases scope <;> simp only [modify, openers, owed, peak, hopener, hdepth, hchains, and_self]

theorem push_keeps (id : BlockId) :
    (scope.push id).openers = scope.openers ∧ (scope.push id).owed = scope.owed ∧
      (scope.push id).peak = scope.peak := by
  refine scope.modify_keeps ?_ ?_ ?_ <;> intro i <;> cases i.chains <;> rfl

@[simp] theorem openers_push (id : BlockId) : (scope.push id).openers = scope.openers :=
  (scope.push_keeps id).1

@[simp] theorem owed_push (id : BlockId) : (scope.push id).owed = scope.owed :=
  (scope.push_keeps id).2.1

@[simp] theorem peak_push (id : BlockId) : (scope.push id).peak = scope.peak :=
  (scope.push_keeps id).2.2

@[simp] theorem openers_openChain (chain : Chain) :
    (scope.openChain chain).openers = scope.openers := by
  cases scope <;> rfl

@[simp] theorem owed_openChain (chain : Chain) :
    (scope.openChain chain).owed = scope.owed + 2 := by
  cases scope <;> simp only [openChain, modify, owed, List.length_cons] <;> omega

theorem peak_openChain_le (chain : Chain) : (scope.openChain chain).peak ≤ scope.peak + 1 := by
  cases scope <;> simp only [openChain, modify, peak, List.length_cons] <;> omega

theorem level_le_peak : scope.level ≤ scope.peak := by
  cases scope with
  | function interior block => exact Nat.le_refl _
  | nested interior purpose outer => exact Nat.le_max_left ..

theorem openers_eq_cons : ∃ outer, scope.openers = scope.interior.opener :: outer := by
  cases scope <;> exact ⟨_, rfl⟩

end OpenScope

namespace ParseState

/-- The highest level of the open scopes. -/
def peak : ParseState → Nat
  | .block scope | .castTypes scope .. | .assemblyLine scope _ | .opening scope _
  | .afterBranch scope _ => scope.peak
  | _ => 0

/-- **The nodes set aside for the end of what is open.** The body of a function takes one node before
its bracket, a cast one before the token behind it, and a further branch one before its `elif`. -/
def owed : ParseState → Nat
  | .afterName _ | .signature .. | .clauseTypes .. => 1
  | .block scope | .assemblyLine scope _ => scope.owed
  | .castTypes scope .. | .afterBranch scope _ => scope.owed + 1
  | .opening scope purpose => scope.owed + purpose.credit
  | _ => 0

/-- **The open brackets belong to the open scopes**, or to a signature in parentheses. -/
def Within (brackets : List Token) : ParseState → Prop
  | .signature _ _ parens | .clauseTypes _ _ parens .. => brackets.length = parens.toNat
  | .block scope | .castTypes scope .. | .assemblyLine scope _ | .opening scope _
  | .afterBranch scope _ => brackets = scope.openers
  | _ => brackets = []

/-- A state with these brackets open, and with no more levels than given. -/
structure Fits (state : ParseState) (brackets : List Token) (depth : Nat) : Prop where
  within : state.Within brackets
  peak_le : state.peak ≤ depth

end ParseState

/-! ## Steps within a budget -/

/-- **Given room, a step fails with certain errors only.** If it succeeds, it leaves room, and its
result has a property. -/
def Spends {α : Type} (E : ParseError → Prop) (m : ParseM α) (room : Nat) (left : α → Nat)
    (P : α → Prop) : Prop :=
  ∀ w, w.store.size + room ≤ w.store.maxNodes →
    match m w with
    | .ok a w' => P a ∧ w'.store.size + left a ≤ w'.store.maxNodes
    | .error e _ => E e

namespace Spends

variable {α β : Type} {E : ParseError → Prop} {room : Nat} {left : α → Nat} {P : α → Prop}

theorem bind {left' : β → Nat} {P' : β → Prop} {m : ParseM α} {k : α → ParseM β}
    (hm : Spends E m room left P) (hk : ∀ a, P a → Spends E (k a) (left a) left' P') :
    Spends E (m >>= k) room left' P' := by
  intro w hroom
  have hfirst := hm w hroom
  cases hr : m w with
  | ok a w₁ =>
    rw [hr] at hfirst
    rw [bind_of_eq_ok hr]
    exact hk a hfirst.1 w₁ hfirst.2
  | error e w₁ =>
    rw [hr] at hfirst
    rw [bind_of_eq_error hr]
    exact hfirst

theorem pure {a : α} (hroom : left a ≤ room) (hP : P a) :
    Spends E (Pure.pure a) room left P :=
  fun _ h => ⟨hP, Nat.le_trans (Nat.add_le_add_left hroom _) h⟩

theorem get : Spends E (MonadState.get : ParseM Workspace) room (fun _ => room) fun _ => True :=
  fun _ h => ⟨trivial, h⟩

theorem modify {f : Workspace → Workspace} (hsize : ∀ w, (f w).store.size = w.store.size)
    (hmax : ∀ w, (f w).store.maxNodes = w.store.maxNodes) :
    Spends E (modify f : ParseM Unit) room (fun _ => room) fun _ => True := by
  intro w h
  refine ⟨trivial, ?_⟩
  rw [hsize, hmax]
  exact h

theorem modifyBlock (id : BlockId) (f : Block → Block) :
    Spends E (modifyBlock id f) room (fun _ => room) fun _ => True :=
  modify (fun _ => Store.size_modifyBlock ..) fun _ => Store.maxNodes_modifyBlock ..

theorem failAt {token : Token} {cause : ParseFault} (h : E ⟨cause, some token.location⟩) :
    Spends E (failAt token cause) room left P :=
  fun _ _ => h

theorem ite {p : Prop} [Decidable p] {m m' : ParseM α} (hm : p → Spends E m room left P)
    (hm' : ¬ p → Spends E m' room left P) : Spends E (if p then m else m') room left P := by
  split
  · next hp => exact hm hp
  · next hp => exact hm' hp

theorem weaken {E' : ParseError → Prop} {room' : Nat} {m : ParseM α} (hm : Spends E m room left P)
    (hE : ∀ e, E e → E' e) (hle : room ≤ room') : Spends E' m room' left P := by
  intro w hroom
  have h := hm w (by omega)
  split at h
  · exact h
  · exact hE _ h

theorem takeIndex : Spends E takeIndex room (fun _ => room) fun _ => True :=
  fun _ h => ⟨trivial, h⟩

/-- **A block takes one node.** -/
theorem addBlock {n : Nat} (block : Block) (h : n + 1 ≤ room) :
    Spends E (addBlock block) room (fun _ => n) fun _ => True := by
  intro w hroom
  have hfree : w.store.size < w.store.maxNodes := by omega
  rw [addBlock_eq_ok.mpr ⟨hfree, rfl, rfl⟩]
  refine ⟨trivial, ?_⟩
  rw [Store.size_withBlock]
  change w.store.size + 1 + n ≤ w.store.maxNodes
  omega

/-- **A definition takes one node.** -/
theorem define {n : Nat} (d : Definition) (h : n + 1 ≤ room) :
    Spends E (define d) room (fun _ => n) fun _ => True := by
  intro w hroom
  have hfree : w.store.size < w.store.maxNodes := by omega
  rw [define_eq_ok (u := ()).mpr ⟨hfree, rfl⟩]
  refine ⟨trivial, ?_⟩
  rw [Store.size_withDef]
  change w.store.size + 1 + n ≤ w.store.maxNodes
  omega

theorem checkDepth {options : ParseOptions} {depth : Nat} (h : depth ≤ options.maxDepth)
    (opener : Token) :
    Spends E (checkDepth options opener depth) room (fun _ => room) fun _ => True := by
  intro w hroom
  rw [checkDepth_eq_ok (u := ()).mpr ⟨h, rfl⟩]
  exact ⟨trivial, hroom⟩

theorem addTo {n : Nat} (scope : OpenScope) (block : Block) (h : n + 1 ≤ room) :
    Spends E (addTo scope block) room (fun _ => n) fun scope' => ∃ id, scope' = scope.push id :=
  (addBlock block h).bind fun id _ => pure (Nat.le_refl _) ⟨id, rfl⟩

/-- **A chain takes two nodes.** -/
theorem closeChains {n : Nat} (finished : List BlockId) (chains : List Chain)
    (h : n + 2 * chains.length ≤ room) :
    Spends E (closeChains finished chains) room (fun _ => n) fun _ => True := by
  induction chains generalizing finished room with
  | nil => exact pure h trivial
  | cons chain outer ih =>
    rw [List.length_cons] at h
    refine (addBlock (n := n + 2 * outer.length + 1) _ (by omega)).bind fun body _ => ?_
    refine (addBlock _ (Nat.le_refl _)).bind fun alternative _ => ?_
    exact (modifyBlock _ _).bind fun _ _ => ih [alternative] (Nat.le_refl _)

/-- The chains of a scope are closed with the nodes set aside for them. -/
theorem settle {n : Nat} (scope : OpenScope) :
    Spends E (settle scope) (scope.owed + n) (fun scope' => scope'.owed + n)
      fun scope' => scope'.openers = scope.openers ∧ scope'.peak ≤ scope.peak := by
  cases scope with
  | function interior block =>
    refine (closeChains (n := n) [] interior.chains ?_).bind fun finished _ => pure ?_ ⟨rfl, ?_⟩
    · simp only [OpenScope.owed]
      omega
    · simp [OpenScope.modify, OpenScope.owed]
    · simp [OpenScope.modify, OpenScope.peak]
  | nested interior purpose outer =>
    refine (closeChains (n := 1 + purpose.credit + outer.owed + n) [] interior.chains ?_).bind
      fun finished _ => pure ?_ ⟨rfl, ?_⟩
    · simp only [OpenScope.owed]
      omega
    · simp only [OpenScope.modify, OpenScope.owed, List.length_nil]
      omega
    · simp only [OpenScope.modify, OpenScope.peak, List.length_nil]
      omega

end Spends

/-! ## Reading a token -/

/-- **An error points at the token**, or at the innermost open bracket if that is never closed. No
limit is the cause. -/
def Blames (token : Token) (brackets : List Token) (e : ParseError) : Prop :=
  e.cause.isLimit = false ∧
    e.location = match e.cause with
      | .unclosedScope _ => brackets.head?.map Token.location
      | _ => some token.location

/-- Reading a token with `room` nodes leaves `n` of them and those set aside. -/
abbrev Affords (token : Token) (brackets : List Token) (depth n : Nat) (m : ParseM ParseState)
    (room : Nat) : Prop :=
  Spends (Blames token brackets) m room (fun next => next.owed + n)
    fun next => next.Fits (bracketsAfter brackets token) depth

theorem reject_spends {α : Type} {token : Token} {brackets : List Token} {room : Nat}
    {left : α → Nat} {P : α → Prop} (expected : Expectation) :
    Spends (Blames token brackets) (reject token expected) room left P :=
  .ite (fun _ => .failAt ⟨rfl, rfl⟩) fun _ => .failAt ⟨rfl, rfl⟩

section Definitions

variable {options : ParseOptions} {token : Token} {brackets : List Token} {depth n : Nat}

theorem bracketsAfter_of_ne (hopening : ∀ b, token.kind ≠ .opening b)
    (hclosing : ∀ b, token.kind ≠ .closing b) : bracketsAfter brackets token = brackets := by
  rw [bracketsAfter]
  split
  · next h => exact absurd h (hopening _)
  · next h => exact absurd h (hclosing _)
  · rfl

theorem bracketsAfter_opening {b : Bracket} (h : token.kind = .opening b) :
    bracketsAfter brackets token = token :: brackets := by
  simp only [bracketsAfter, h]

theorem bracketsAfter_closing {b : Bracket} (h : token.kind = .closing b) :
    bracketsAfter brackets token = brackets.tail := by
  simp only [bracketsAfter, h]

theorem beginDefinition_spends (hbrackets : brackets = []) (place : Option Token) :
    Affords token brackets depth n (beginDefinition place token) (1 + n) := by
  unfold beginDefinition
  split
  · next family h =>
    have hkind := kind_of_family h
    refine .pure (by simp only [ParseState.owed]; omega) ⟨?_, Nat.zero_le _⟩
    rw [bracketsAfter_of_ne (by simp [hkind]) (by simp [hkind])]
    exact hbrackets
  · exact reject_spends _

theorem nameDefinition_spends (hbrackets : brackets = []) (family : Family) (keyword place : Token) :
    Affords token brackets depth n (nameDefinition family keyword place token) (1 + n) := by
  refine .ite (fun _ => reject_spends _) fun hkind => Spends.get.bind fun w _ => ?_
  rw [not_not] at hkind
  have hafter : bracketsAfter brackets token = [] := by
    rw [bracketsAfter_of_ne (by simp [hkind]) (by simp [hkind]), hbrackets]
  refine .ite (fun _ => .failAt ⟨rfl, rfl⟩) fun _ => ?_
  cases family with
  | function => exact .pure (Nat.le_refl _) ⟨hafter, Nat.zero_le _⟩
  | memory | string =>
    exact .pure (by simp only [ParseState.owed]; omega) ⟨hafter, Nat.zero_le _⟩

variable {header : Header} {signature : Signature} {parens : Bool}

/-- **The body of a function takes two nodes**: the one set aside and that of its bracket. -/
theorem openFunction_spends (hbrackets : brackets = []) (hkind : token.kind = .opening .brace)
    (hdepth : depth + 1 ≤ options.maxDepth) :
    Affords token brackets (depth + 1) n (openFunction options header signature token)
      (2 + n) := by
  rw [openFunction_eq, beginFunction, bind_assoc]
  refine (Spends.addBlock (n := 1 + n) _ (by omega)).bind fun body _ => ?_
  rw [bind_assoc]
  refine (Spends.define (n := n) _ (by omega)).bind fun _ _ => ?_
  rw [bind_assoc]
  refine (Spends.checkDepth (by omega) token).bind fun _ _ => ?_
  rw [pure_bind]
  refine .pure ?_ ⟨?_, Nat.le_add_left ..⟩
  · exact Nat.le_of_eq (Nat.zero_add n)
  · rw [bracketsAfter_opening hkind, hbrackets]
    rfl

theorem endSignature_spends (hbrackets : brackets.length = parens.toNat)
    (hdepth : depth + 1 ≤ options.maxDepth) :
    Affords token brackets (depth + 1) n (endSignature options header signature parens token)
      (2 + n) := by
  refine .ite (fun hparens => .ite (fun hkind => ?_) fun _ => reject_spends _) fun hparens =>
    .ite (fun hkind => ?_) fun _ => reject_spends _
  · refine .pure (by simp only [ParseState.owed]; omega) ⟨?_, Nat.zero_le _⟩
    rw [bracketsAfter_closing hkind]
    simp [ParseState.Within, hbrackets, hparens]
  · have hnil : brackets = [] := by simpa [hparens] using hbrackets
    exact openFunction_spends hnil hkind hdepth

theorem beginSignature_spends (hbrackets : brackets.length = parens.toNat)
    (hdepth : depth + 1 ≤ options.maxDepth) :
    Affords token brackets (depth + 1) n (beginSignature options header signature parens token)
      (2 + n) := by
  unfold beginSignature
  split
  · next hkind =>
    refine .pure (by simp only [ParseState.owed]; omega) ⟨?_, Nat.zero_le _⟩
    rwa [bracketsAfter_of_ne (by simp [hkind]) (by simp [hkind])]
  · next hkind =>
    refine .pure (by simp only [ParseState.owed]; omega) ⟨?_, Nat.zero_le _⟩
    rwa [bracketsAfter_of_ne (by simp [hkind]) (by simp [hkind])]
  · exact endSignature_spends hbrackets hdepth

theorem bracketsAfter_of_isType (h : token.kind.isType = true) :
    bracketsAfter brackets token = brackets := by
  refine bracketsAfter_of_ne ?_ ?_ <;> intro b hkind <;> rw [hkind] at h <;> cases h

theorem clauseType_spends (hbrackets : brackets.length = parens.toNat)
    (hdepth : depth + 1 ≤ options.maxDepth) (clause : Clause) (keyword : Token)
    (types : List Token) :
    Affords token brackets (depth + 1) n
      (clauseType options header signature parens clause keyword types token) (2 + n) := by
  refine .ite (fun htype => ?_) fun _ => .ite (fun _ => reject_spends _) fun _ =>
    .ite (fun hkind => ?_) fun _ => endSignature_spends hbrackets hdepth
  · refine .pure (by simp only [ParseState.owed]; omega) ⟨?_, Nat.zero_le _⟩
    rwa [bracketsAfter_of_isType htype]
  · refine .pure (by simp only [ParseState.owed]; omega) ⟨?_, Nat.zero_le _⟩
    rwa [bracketsAfter_of_ne (by simp [hkind]) (by simp [hkind])]

/-- A definition of one token behind its name. -/
theorem define_spends (hbrackets : brackets = []) (hopening : ∀ b, token.kind ≠ .opening b)
    (hclosing : ∀ b, token.kind ≠ .closing b) (d : Definition) :
    Affords token brackets depth n (define d >>= fun _ => pure .definition) (1 + n) := by
  refine (Spends.define (n := n) d (by omega)).bind fun _ _ => .pure ?_ ⟨?_, Nat.zero_le _⟩
  · exact Nat.le_of_eq (Nat.zero_add n)
  · rw [bracketsAfter_of_ne hopening hclosing]
    exact hbrackets

theorem endMemory_spends (hbrackets : brackets = []) :
    Affords token brackets depth n (endMemory header token) (1 + n) := by
  refine .ite (fun hsize => ?_) fun _ => reject_spends _
  refine define_spends hbrackets ?_ ?_ _ <;>
    obtain ⟨width, hkind⟩ | ⟨width, _, hkind, -⟩ := (isCapacity_iff token).mp hsize <;>
    simp [hkind]

theorem endString_spends (hbrackets : brackets = []) :
    Affords token brackets depth n (endString header token) (1 + n) := by
  refine .ite (fun hstring => ?_) fun _ => reject_spends _
  refine define_spends hbrackets ?_ ?_ _ <;> intro b hkind <;> rw [hkind] at hstring <;>
    cases hstring

end Definitions

section Scopes

variable {options : ParseOptions} {token : Token} {brackets : List Token} {depth n : Nat}
  {scope : OpenScope}

/-- One more block in the innermost scope. -/
theorem addTo_spends (hbrackets : bracketsAfter brackets token = scope.openers)
    (hpeak : scope.peak ≤ depth) (block : Block) :
    Affords token brackets depth n
      (addTo scope block >>= fun scope => pure (.block scope)) (scope.owed + 1 + n) := by
  refine (Spends.addTo (n := scope.owed + n) scope block (by omega)).bind fun _ hscope => ?_
  obtain ⟨id, rfl⟩ := hscope
  refine .pure ?_ ⟨?_, ?_⟩
  · simp [ParseState.owed]
  · simpa [ParseState.Within] using hbrackets
  · simpa [ParseState.peak] using hpeak

theorem openScope_spends (hbrackets : brackets = scope.openers) (hpeak : scope.peak ≤ depth)
    (hdepth : depth + 1 ≤ options.maxDepth) (purpose : Purpose) {bracket : Bracket}
    (hkind : token.kind = .opening bracket) :
    Affords token brackets (depth + 1) n (openScope options scope purpose bracket token)
      (scope.owed + purpose.credit + 1 + n) := by
  have hlevel := scope.level_le_peak
  rw [openScope_eq]
  refine (Spends.checkDepth (by omega) token).bind fun _ _ => .pure ?_ ⟨?_, ?_⟩
  · simp only [ParseState.owed, OpenScope.owed, List.length_nil]
    omega
  · rw [bracketsAfter_opening hkind, hbrackets]
    rfl
  · simp only [ParseState.peak, OpenScope.peak, List.length_nil]
    omega

/-- **A nested scope that is complete serves its purpose** with the node of its token and those set
aside for the purpose. -/
theorem serve_spends (hbrackets : bracketsAfter brackets token = scope.openers)
    (hpeak : scope.peak ≤ depth) (id : BlockId) (purpose : Purpose) :
    Affords token brackets depth n (serve scope id purpose)
      (1 + purpose.credit + scope.owed + n) := by
  have hpush (id : BlockId) : (ParseState.block (scope.push id)).Fits
      (bracketsAfter brackets token) depth := by
    refine ⟨?_, ?_⟩
    · simpa [ParseState.Within] using hbrackets
    · simpa [ParseState.peak] using hpeak
  cases purpose with
  | plain =>
    refine .pure ?_ (hpush id)
    simp only [ParseState.owed, OpenScope.owed_push]
    omega
  | branchCondition keyword index =>
    refine .pure ?_ ⟨hbrackets, hpeak⟩
    simp only [ParseState.owed, Purpose.credit]
    omega
  | branchBody keyword index condition =>
    refine (Spends.addBlock (n := 1 + scope.owed + n) _ ?_).bind fun branch _ => .pure ?_ ⟨?_, ?_⟩
    · simp only [Purpose.credit]
      omega
    · simp only [ParseState.owed, OpenScope.owed_push]
      omega
    · simpa [ParseState.Within] using hbrackets
    · simpa [ParseState.peak] using hpeak
  | alternative keyword index branch =>
    refine (Spends.addBlock (n := scope.owed + n) _ ?_).bind fun alternative _ => ?_
    · simp only [Purpose.credit]
      omega
    refine (Spends.modifyBlock _ _).bind fun _ _ => ?_
    have hsettle := Spends.settle (E := Blames token brackets) (n := n) (scope.push alternative)
    rw [OpenScope.owed_push, OpenScope.openers_push, OpenScope.peak_push] at hsettle
    refine hsettle.bind fun settled h => .pure (Nat.le_refl _) ⟨?_, ?_⟩
    · exact hbrackets.trans h.1.symm
    · exact Nat.le_trans h.2 hpeak
  | loopCondition keyword index =>
    refine .pure ?_ ⟨hbrackets, hpeak⟩
    simp only [ParseState.owed, Purpose.credit]
    omega
  | loopBody keyword index condition =>
    refine (Spends.addBlock (n := scope.owed + n) _ ?_).bind fun loop _ => .pure ?_ (hpush loop)
    · simp only [Purpose.credit]
      omega
    · simp [ParseState.owed]

theorem closeScope_spends (hbrackets : brackets = scope.openers) (hpeak : scope.peak ≤ depth)
    {bracket : Bracket} (hkind : token.kind = .closing bracket) :
    Affords token brackets depth n (closeScope scope) (scope.owed + 1 + n) := by
  cases scope with
  | function interior body =>
    refine (Spends.modifyBlock _ _).bind fun _ _ => .pure ?_ ⟨?_, Nat.zero_le _⟩
    · simp only [ParseState.owed]
      omega
    · rw [bracketsAfter_closing hkind, hbrackets]
      rfl
  | nested interior purpose outer =>
    rw [closeScope_nested]
    refine (Spends.addBlock (n := 1 + purpose.credit + outer.owed + n) _ ?_).bind fun id _ => ?_
    · simp only [OpenScope.owed]
      omega
    refine serve_spends ?_ (Nat.le_trans (Nat.le_max_right ..) hpeak) id purpose
    rw [bracketsAfter_closing hkind, hbrackets]
    rfl

theorem reference_spends (hbrackets : brackets = scope.openers) (hpeak : scope.peak ≤ depth)
    (hkind : token.kind = .identifier) :
    Affords token brackets depth n (reference scope token) (scope.owed + 1 + n) := by
  refine Spends.get.bind fun w _ => ?_
  split
  · exact .failAt ⟨rfl, rfl⟩
  · refine (Spends.modify (fun _ => Store.size_modifyDef ..)
      fun _ => Store.maxNodes_modifyDef ..).bind fun _ _ => ?_
    refine addTo_spends ?_ hpeak _
    rw [bracketsAfter_of_ne (by simp [hkind]) (by simp [hkind]), hbrackets]

theorem call_spends (hbrackets : brackets = scope.openers) (hpeak : scope.peak ≤ depth)
    (hkind : token.kind = .keyword .call) :
    Affords token brackets depth n (call scope token) (scope.owed + 1 + n) := by
  unfold call
  split
  · exact .failAt ⟨rfl, rfl⟩
  · next callee before _ =>
    refine Spends.get.bind fun w _ => .ite (fun _ => ?_) fun _ => .failAt ⟨rfl, rfl⟩
    obtain ⟨hopeners, howed, hpeak'⟩ := scope.modify_keeps
      (f := fun i => { i with blocks := before }) (fun _ => rfl) (fun _ => rfl) fun _ => rfl
    rw [← howed]
    refine addTo_spends ?_ (hpeak' ▸ hpeak) _
    rw [bracketsAfter_of_ne (by simp [hkind]) (by simp [hkind]), hbrackets, hopeners]

/-- A token that opens no bracket and adds no node at once. -/
theorem pure_spends {state : ParseState} {room : Nat} (hstate : state.Within brackets)
    (hpeak : state.peak ≤ depth) (hroom : state.owed + n ≤ room)
    (hopening : ∀ b, token.kind ≠ .opening b) (hclosing : ∀ b, token.kind ≠ .closing b) :
    Affords token brackets depth n (pure state) room := by
  refine .pure hroom ⟨?_, hpeak⟩
  rw [bracketsAfter_of_ne hopening hclosing]
  exact hstate

theorem beginBlock_spends (hbrackets : brackets = scope.openers) (hpeak : scope.peak ≤ depth)
    (hdepth : depth + 1 ≤ options.maxDepth) :
    Affords token brackets (depth + 1) n (beginBlock options scope token)
      (scope.owed + 1 + n) := by
  have hpeak' : scope.peak ≤ depth + 1 := Nat.le_succ_of_le hpeak
  have hroom : scope.owed + n ≤ scope.owed + 1 + n := by omega
  have hroom' : scope.owed + 1 + n ≤ scope.owed + 1 + n := Nat.le_refl _
  have hafter (hopening : ∀ b, token.kind ≠ .opening b) (hclosing : ∀ b, token.kind ≠ .closing b) :
      bracketsAfter brackets token = scope.openers := by
    rw [bracketsAfter_of_ne hopening hclosing, hbrackets]
  unfold beginBlock
  split
  · next hkind => exact addTo_spends (hafter (by simp [hkind]) (by simp [hkind])) hpeak' _
  · next hkind => exact addTo_spends (hafter (by simp [hkind]) (by simp [hkind])) hpeak' _
  · next hkind => exact reference_spends hbrackets hpeak' hkind
  · next hkind => exact call_spends hbrackets hpeak' hkind
  · next hkind => exact pure_spends hbrackets hpeak' hroom' (by simp [hkind]) (by simp [hkind])
  · next hkind => exact openScope_spends hbrackets hpeak hdepth .plain hkind
  · next hkind =>
    refine Spends.takeIndex.bind fun index _ => ?_
    exact pure_spends hbrackets hpeak' hroom (by simp [hkind]) (by simp [hkind])
  · exact .failAt ⟨rfl, rfl⟩
  · exact .failAt ⟨rfl, rfl⟩
  · next hkind =>
    refine Spends.takeIndex.bind fun index _ => ?_
    exact pure_spends hbrackets hpeak' hroom (by simp [hkind]) (by simp [hkind])
  · next hkind => exact pure_spends hbrackets hpeak' hroom (by simp [hkind]) (by simp [hkind])
  · exact .failAt ⟨rfl, rfl⟩

theorem inScope_spends (hbrackets : brackets = scope.openers) (hpeak : scope.peak ≤ depth)
    (hdepth : depth + 1 ≤ options.maxDepth) :
    Affords token brackets (depth + 1) n (inScope options scope token) (scope.owed + 1 + n) := by
  refine .ite (fun hkind => ?_) fun _ => .ite (fun _ => .failAt ?_) fun _ =>
    .ite (fun _ => .failAt ⟨rfl, rfl⟩) fun _ => .ite (fun _ => .failAt ⟨rfl, rfl⟩) fun _ => ?_
  · exact closeScope_spends hbrackets (Nat.le_succ_of_le hpeak) hkind
  · obtain ⟨outer, houter⟩ := scope.openers_eq_cons
    refine ⟨rfl, ?_⟩
    rw [hbrackets, houter]
    rfl
  · exact beginBlock_spends hbrackets hpeak hdepth

theorem castType_spends (hbrackets : brackets = scope.openers) (hpeak : scope.peak ≤ depth)
    (hdepth : depth + 1 ≤ options.maxDepth) (keyword : Token) (types : List Token) :
    Affords token brackets (depth + 1) n (castType options scope keyword types token)
      (scope.owed + 1 + 1 + n) := by
  refine .ite (fun htype => ?_) fun _ => .ite (fun _ => reject_spends _) fun _ => ?_
  · refine .pure ?_ ⟨?_, Nat.le_succ_of_le hpeak⟩
    · simp only [ParseState.owed]
      omega
    · rw [bracketsAfter_of_isType htype]
      exact hbrackets
  · refine (Spends.addTo (n := scope.owed + 1 + n) scope _ (by omega)).bind fun _ hscope => ?_
    obtain ⟨id, rfl⟩ := hscope
    rw [← scope.owed_push id]
    exact inScope_spends (by simpa using hbrackets) (by simpa using hpeak) hdepth

theorem endAssembly_spends (hbrackets : brackets = scope.openers) (hpeak : scope.peak ≤ depth)
    (keyword : Token) :
    Affords token brackets depth n (endAssembly scope keyword token) (scope.owed + 1 + n) := by
  refine .ite (fun hstring => ?_) fun _ => reject_spends _
  refine addTo_spends ?_ hpeak _
  rw [bracketsAfter_of_ne, hbrackets] <;> intro b hkind <;> rw [hkind] at hstring <;> cases hstring

/-- **A further branch takes two nodes at its end**: the one set aside, and that of `elif`. -/
theorem afterBranch_spends (hbrackets : brackets = scope.openers) (hpeak : scope.peak ≤ depth)
    (hdepth : depth + 1 ≤ options.maxDepth) (branch : BlockId) :
    Affords token brackets (depth + 1) n (afterBranch options scope branch token)
      (scope.owed + 1 + 1 + n) := by
  unfold afterBranch
  split
  · next hkind =>
    refine Spends.takeIndex.bind fun index _ => ?_
    refine pure_spends hbrackets (Nat.le_succ_of_le hpeak) ?_ (by simp [hkind]) (by simp [hkind])
    simp only [ParseState.owed, Purpose.credit]
    omega
  · next hkind =>
    refine Spends.takeIndex.bind fun index _ => Spends.takeIndex.bind fun inner _ => ?_
    refine pure_spends ?_ ?_ ?_ (by simp [hkind]) (by simp [hkind])
    · exact hbrackets.trans (scope.openers_openChain _).symm
    · exact Nat.le_trans (scope.peak_openChain_le _) (Nat.succ_le_succ hpeak)
    · simp only [ParseState.owed, Purpose.credit, OpenScope.owed_openChain]
      omega
  · have hsettle := Spends.settle (E := Blames token brackets) (n := 1 + (1 + n)) scope
    rw [show scope.owed + 1 + 1 + n = scope.owed + (1 + (1 + n)) by omega]
    refine hsettle.bind fun settled h => ?_
    have hstep : Affords token brackets (depth + 1) n (inScope options settled token)
        (settled.owed + 1 + n) :=
      inScope_spends (hbrackets.trans h.1.symm) (Nat.le_trans h.2 hpeak) hdepth
    exact hstep.weaken (fun _ he => he) (by omega)

end Scopes

/-! ## Runs -/

/-- **Reading a token costs one node and one level at most**, and blames the token or the innermost
open bracket if it fails. -/
theorem step_spends {options : ParseOptions} {state : ParseState} {brackets : List Token}
    {depth : Nat} (hfits : state.Fits brackets depth) (hdepth : depth + 1 ≤ options.maxDepth)
    (token : Token) (n : Nat) :
    Affords token brackets (depth + 1) n (step options state token) (state.owed + 1 + n) := by
  obtain ⟨hwithin, hpeak⟩ := hfits
  cases state with
  | definition =>
    simp only [ParseState.owed, Nat.zero_add]
    refine .ite (fun hstop => ?_) fun _ => .ite (fun hkind => ?_) fun _ =>
      .ite (fun _ => beginDefinition_spends hwithin none) fun _ => .failAt ⟨rfl, rfl⟩
    · refine pure_spends hwithin (Nat.zero_le _) ?_ ?_ ?_
      · simp only [ParseState.owed]
        omega
      · exact fun b => kind_ne_of_stop hstop rfl
      · exact fun b => kind_ne_of_stop hstop rfl
    · refine pure_spends hwithin (Nat.zero_le _) ?_ (by simp [hkind]) (by simp [hkind])
      simp only [ParseState.owed]
      omega
  | sectionName =>
    refine .ite (fun hkind => ?_) fun _ => reject_spends _
    refine pure_spends hwithin (Nat.zero_le _) ?_ (by simp [hkind]) (by simp [hkind])
    simp only [ParseState.owed]
    omega
  | definitionKeyword place =>
    simp only [ParseState.owed, Nat.zero_add]
    exact beginDefinition_spends hwithin (some place)
  | definitionName family keyword place =>
    simp only [ParseState.owed, Nat.zero_add]
    exact nameDefinition_spends hwithin family keyword place
  | afterName header =>
    have hnil : brackets = [] := hwithin
    refine .ite (fun hkind => .pure ?_ ⟨?_, Nat.zero_le _⟩) fun _ =>
      beginSignature_spends (by rw [hnil]; rfl) hdepth
    · simp only [ParseState.owed]
      omega
    · rw [bracketsAfter_opening hkind, hnil]
      rfl
  | signature header signature parens => exact beginSignature_spends hwithin hdepth
  | clauseTypes header signature parens clause keyword types =>
    exact clauseType_spends hwithin hdepth clause keyword types
  | capacity header =>
    simp only [ParseState.owed, Nat.zero_add]
    exact endMemory_spends hwithin
  | literal header =>
    simp only [ParseState.owed, Nat.zero_add]
    exact endString_spends hwithin
  | block scope => exact inScope_spends hwithin hpeak hdepth
  | castTypes scope keyword types => exact castType_spends hwithin hpeak hdepth keyword types
  | assemblyLine scope keyword => exact endAssembly_spends hwithin (Nat.le_succ_of_le hpeak) keyword
  | opening scope purpose =>
    simp only [step]
    split
    · next bracket hbracket =>
      have hkind : token.kind = .opening bracket := by
        cases hk : token.kind with
        | opening b =>
          rw [hk] at hbracket
          cases hbracket
          rfl
        | _ =>
          rw [hk] at hbracket
          cases hbracket
      exact openScope_spends hwithin hpeak hdepth purpose hkind
    · cases purpose <;> exact .failAt ⟨rfl, rfl⟩
  | afterBranch scope branch => exact afterBranch_spends hwithin hpeak hdepth branch

/-- **Reading tokens in a row costs one node and one level for every token at most**, and no limit is
met. -/
theorem run_spends {options : ParseOptions} {state : ParseState} {brackets : List Token}
    {depth : Nat} (hfits : state.Fits brackets depth) {tokens : List Token}
    (hdepth : depth + tokens.length ≤ options.maxDepth) (n : Nat) :
    Spends (fun e => e.cause.isLimit = false) (run options state tokens)
      (state.owed + tokens.length + n) (fun next => next.owed + n)
      fun next => next.Fits (tokens.foldl bracketsAfter brackets) (depth + tokens.length) := by
  induction tokens generalizing state brackets depth with
  | nil => exact .pure (Nat.le_refl _) hfits
  | cons token rest ih =>
    rw [List.length_cons] at hdepth ⊢
    have hstep := step_spends hfits (show depth + 1 ≤ options.maxDepth by omega) token
      (rest.length + n)
    rw [show state.owed + (rest.length + 1) + n = state.owed + 1 + (rest.length + n) by omega]
    refine (hstep.weaken (fun e he => he.1) (Nat.le_refl _)).bind fun next hnext => ?_
    rw [← Nat.add_assoc, show depth + (rest.length + 1) = depth + 1 + rest.length by omega]
    exact ih hnext (by omega)

end StackCompiler
