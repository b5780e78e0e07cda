import Mathlib.Tactic.SplitIfs
import StackCompiler.Proofs.Token.Comments

/-!
# What tokens carry

A token that is read from a text carries a value of its kind, and an identifier carries its own
text. A run that no error stops ends with the end of input, and has no more tokens than the text has
characters. Reading never fails for the reason that a token waits already.

* `TokenKind.Carries`: the values that belong to a kind.
* `Scanner.Yields`: what a scanner can give.
* **`scanToken_readsToken`**: the token at the front of the input.
* **`Lexer.run_whole`**: a whole run.
-/

namespace StackCompiler

/-! ## Values of a kind -/

/-- **The values that belong to a kind.** An identifier carries its own text. -/
def TokenKind.Carries : TokenKind → TokenValue → String → Prop
  | .number (.signed _), value, _ => ∃ n, value = .int n
  | .number (.unsigned _), value, _ => ∃ n, value = .uint n
  | .number _, value, _ => ∃ bits, value = .float bits
  | .string _, value, _ => ∃ bytes, value = .bytes bytes
  | .identifier, value, text => value = .text text
  | _, _, _ => True

/-- **The token carries a value of its kind.** -/
def Token.Faithful (token : Token) : Prop := token.kind.Carries token.value token.text

/-- Is it the kind of a fixed word? -/
def TokenKind.isFixed : TokenKind → Bool
  | .opening _ | .closing _ | .operator _ | .typeName _ | .keyword _ => true
  | _ => false

theorem TokenKind.carries_of_isFixed {kind : TokenKind} (h : kind.isFixed = true)
    (value : TokenValue) (text : String) : kind.Carries value text := by
  cases kind with
  | opening | closing | operator | typeName | keyword => trivial
  | number | string | identifier | eof | none => cases h

theorem mem_of_searchSorted {α : Type} {table : Array (String × α)} {key : String}
    {low high : Nat} {value : α} (h : searchSorted table key low high = some value) :
    (key, value) ∈ table := by
  fun_induction searchSorted table key low high with
  | case1 => cases h
  | case2 low high _ middle found hentry =>
    cases h
    exact Array.mem_of_getElem? hentry
  | case3 _ _ _ _ _ _ _ _ _ ih => exact ih h
  | case4 _ _ _ _ _ _ _ _ _ ih => exact ih h
  | case5 => cases h

theorem TokenKind.isFixed_of_ofSpelling? {text : String} {kind : TokenKind}
    (h : TokenKind.ofSpelling? text = some kind) : kind.isFixed = true := by
  have hreserved : ∀ entry ∈ TokenKind.reserved, entry.2.isFixed = true := by decide
  exact hreserved _ (mem_of_searchSorted h)

/-! ## Results of scanners -/

namespace Scanner

/-- **Every result has a property**, and no fault says that a token waits already. -/
def Yields {α : Type} (m : Scanner α) (P : α → Prop) : Prop :=
  ∀ c, match m c with
    | .ok a _ => P a
    | .error fault _ => fault.cause ≠ .lookaheadOverflow

section Laws

variable {α β : Type} {P : α → Prop} {Q : β → Prop}

theorem Yields.bind {m : Scanner α} {f : α → Scanner β} (hm : m.Yields P)
    (hf : ∀ a, P a → (f a).Yields Q) : (m >>= f).Yields Q := by
  intro c
  have h := hm c
  rw [bind_apply]
  cases hr : m c with
  | ok a d =>
    rw [hr] at h
    exact hf a h d
  | error fault d =>
    rw [hr] at h
    exact h

theorem Yields.pure {a : α} (h : P a) : Yields (Pure.pure a : Scanner α) P := fun _ => h

theorem Yields.failAt (place : Nat) {cause : LexFault} (h : cause ≠ .lookaheadOverflow) :
    Yields (Scanner.failAt place cause : Scanner α) P := fun _ => h

theorem Yields.get : Yields (MonadState.get : Scanner Cursor) fun _ => True := fun _ => trivial

theorem Yields.peek : peek.Yields fun _ => True := fun _ => trivial

theorem Yields.skip (n : Nat) : (skip n).Yields fun _ => True := fun _ => trivial

theorem Yields.takeWhile (p : Char → Bool) : (Scanner.takeWhile p).Yields fun _ => True :=
  fun _ => trivial

theorem Yields.expectEnd {cause : Char → LexFault} (h : ∀ c, cause c ≠ .lookaheadOverflow) :
    (Scanner.expectEnd cause).Yields fun _ => True := by
  refine Yields.peek.bind fun next _ => ?_
  split
  · exact .pure trivial
  · split
    · exact .pure trivial
    · exact fun _ => h _

theorem eq_of_expectEnd {cause : Char → LexFault} {c d : Cursor} {u : Unit}
    (h : Scanner.expectEnd cause c = .ok u d) : c = d := by
  rw [Scanner.expectEnd, bind_apply] at h
  simp only [Scanner.peek] at h
  cases hnext : c.rest.head? with
  | none =>
    rw [hnext] at h
    cases h
    rfl
  | some next =>
    rw [hnext] at h
    dsimp only at h
    split_ifs at h
    · cases h
      rfl
    · cases h

end Laws

end Scanner

/-! ## Numerals -/

namespace Numeral

open Scanner

theorem scanSign_yields : scanSign.Yields fun _ => True := by
  refine Yields.get.bind fun here _ => ?_
  split
  · exact .pure trivial
  · split_ifs
    · exact (Yields.skip 1).bind fun _ _ => .pure trivial
    · exact .failAt _ (by simp)
    · exact .pure trivial

theorem scanBase_yields (start : Nat) (sign : Option Char) :
    (scanBase start sign).Yields fun _ => True := by
  refine Yields.get.bind fun here _ => ?_
  split
  · split
    · exact .pure trivial
    · split_ifs
      · exact .failAt _ (by simp)
      · exact (Yields.skip 2).bind fun _ _ => .pure trivial
  · exact .pure trivial

theorem scanDigits_yields (base : Base) {missing : LexFault}
    (hmissing : missing ≠ .lookaheadOverflow) : (scanDigits base missing).Yields fun _ => True := by
  intro here
  unfold scanDigits
  split
  · next h =>
    split at h
    · split at h <;> cases h
    · trivial
  · next h =>
    split at h
    · split at h <;> cases h
      · exact hmissing
      · simp
    · cases h

theorem scanInteger_yields (start : Nat) (base : Base) :
    (scanInteger start base).Yields fun _ => True := by
  refine (scanDigits_yields base (by simp)).bind fun digits _ => ?_
  split_ifs
  · exact (Yields.failAt (P := fun _ => True) _ (by simp)).bind fun _ _ => .pure trivial
  · exact .pure trivial

theorem scanFraction_yields (base : Base) : (scanFraction base).Yields fun _ => True := by
  refine Yields.get.bind fun here _ => ?_
  split
  · split_ifs
    · exact (Yields.skip 1).bind fun _ _ => .takeWhile _
    · exact .pure trivial
  · exact .pure trivial

theorem scanExponentSign_yields : scanExponentSign.Yields fun _ => True := by
  refine Yields.peek.bind fun next _ => ?_
  split
  · exact (Yields.skip 1).bind fun _ _ => .pure trivial
  · exact (Yields.skip 1).bind fun _ _ => .pure trivial
  · exact .pure trivial

theorem scanExponent_yields (base : Base) : (scanExponent base).Yields fun _ => True := by
  refine Yields.peek.bind fun next _ => ?_
  split
  · exact .pure trivial
  · split_ifs
    · refine (Yields.skip 1).bind fun _ _ => scanExponentSign_yields.bind fun _ _ => ?_
      exact (scanDigits_yields _ (by simp)).bind fun _ _ => .pure trivial
    · exact .pure trivial

/-- A real number has no integer suffix. -/
theorem scanSuffix_yields (real : Bool) :
    (scanSuffix real).Yields fun suffix =>
      real = true → ∀ type, suffix = some type → type.isFloat = true := by
  refine Yields.get.bind fun here _ => ?_
  split
  · exact .pure (by simp)
  · split_ifs
    · refine (Yields.takeWhile _).bind fun suffix _ => ?_
      dsimp only
      split
      · exact .failAt _ (by simp)
      · split_ifs with hreal
        · exact .failAt _ (by simp)
        · refine .pure fun h _ htype => ?_
          cases htype
          simpa [h] using hreal
    · exact .pure (by simp)

theorem scan_yields :
    scan.Yields fun n => n.isReal = true → ∀ type, n.suffix = some type → type.isFloat = true := by
  refine Yields.get.bind fun start _ => scanSign_yields.bind fun sign _ => ?_
  refine (scanBase_yields start.read sign).bind fun base _ => ?_
  refine (scanInteger_yields start.read base).bind fun integer _ => ?_
  refine (scanFraction_yields base).bind fun fraction _ => ?_
  refine (scanExponent_yields base).bind fun exponent _ => ?_
  exact (scanSuffix_yields _).bind fun suffix hsuffix => .pure hsuffix

theorem realBits_ne_error (n : Numeral) (type : NumberType) (text : String) :
    n.realBits type text ≠ .error .lookaheadOverflow := by
  rw [realBits]
  dsimp only
  split_ifs <;> simp

theorem integerToken_ne_error (n : Numeral) (type : NumberType) (text : String) :
    n.integerToken type text ≠ .error .lookaheadOverflow := by
  unfold integerToken
  split_ifs
  · simp
  · split <;> simp
  · simp

theorem evaluate_ne_error (n : Numeral) (text : String) :
    n.evaluate text ≠ .error .lookaheadOverflow := by
  rw [evaluate]
  split_ifs
  · have h := n.realBits_ne_error (n.suffix.getD .float64) text
    revert h
    dsimp only
    cases n.realBits (n.suffix.getD .float64) text with
    | ok bits =>
      intro _ heq
      cases heq
    | error cause =>
      rintro h heq
      cases heq
      exact h rfl
  · have h := n.integerToken_ne_error (n.suffix.getD (.signed .w64)) text
    revert h
    dsimp only
    cases n.integerToken (n.suffix.getD (.signed .w64)) text with
    | ok value =>
      intro _ heq
      cases heq
    | error cause =>
      rintro h heq
      cases heq
      exact h rfl

theorem carries_of_integerToken {n : Numeral} {type : NumberType} (htype : type.isFloat = false)
    {text : String} {value : TokenValue} (h : n.integerToken type text = .ok value)
    (word : String) : (TokenKind.number type).Carries value word := by
  unfold integerToken at h
  split_ifs at h
  · cases type with
    | signed width =>
      cases h
      exact ⟨_, rfl⟩
    | unsigned width =>
      cases h
      exact ⟨_, rfl⟩
    | float32 => cases htype
    | float64 => cases htype

/-- **The value of a literal is one of its type.** -/
theorem carries_of_evaluate {n : Numeral}
    (hn : n.isReal = true → ∀ type, n.suffix = some type → type.isFloat = true)
    {text : String} {type : NumberType} {value : TokenValue}
    (h : n.evaluate text = .ok (type, value)) (word : String) :
    (TokenKind.number type).Carries value word := by
  rw [evaluate] at h
  split_ifs at h with hreal
  · have hfloat : (n.suffix.getD .float64).isFloat = true := by
      cases hsuffix : n.suffix with
      | none => rfl
      | some type =>
        rw [hsuffix] at hreal
        exact (Bool.or_eq_true_iff.mp hreal).elim (fun h => hn h type hsuffix) id
    dsimp only at h
    cases hbits : n.realBits (n.suffix.getD .float64) text with
    | error cause =>
      rw [hbits] at h
      cases h
    | ok bits =>
      rw [hbits] at h
      cases h
      cases hsuffix : n.suffix.getD .float64 with
      | float32 | float64 => exact ⟨bits, rfl⟩
      | signed width | unsigned width =>
        rw [hsuffix] at hfloat
        cases hfloat
  · have hfloat : (n.suffix.getD (.signed .w64)).isFloat = false := by
      cases hsuffix : n.suffix with
      | none => rfl
      | some type =>
        rw [hsuffix] at hreal
        exact (Bool.or_eq_false_iff.mp (Bool.eq_false_iff.mpr hreal)).2
    dsimp only at h
    cases htoken : n.integerToken (n.suffix.getD (.signed .w64)) text with
    | error cause =>
      rw [htoken] at h
      cases h
    | ok value =>
      rw [htoken] at h
      cases h
      exact carries_of_integerToken hfloat htoken word

end Numeral

/-! ## Literals and words -/

/-- A kind and a value that a scanner gives for a text. -/
def Reading (result : TokenKind × TokenValue) (text : String) : Prop :=
  result.1.Carries result.2 text ∧ result.1 ≠ .none

theorem reading_of_isFixed {kind : TokenKind} (h : kind.isFixed = true) (value : TokenValue)
    (text : String) : Reading (kind, value) text := by
  refine ⟨TokenKind.carries_of_isFixed h value text, ?_⟩
  rintro rfl
  cases h

theorem scanNumber_yields : scanNumber.Yields fun result => ∀ text, Reading result text := by
  refine Scanner.Yields.get.bind fun start _ => Numeral.scan_yields.bind fun n hn => ?_
  refine (Scanner.Yields.expectEnd (by simp)).bind fun _ _ => ?_
  refine Scanner.Yields.get.bind fun finish _ => ?_
  split
  · next type value heq => exact .pure fun text => ⟨Numeral.carries_of_evaluate hn heq text, by simp⟩
  · next cause heq =>
    refine .failAt _ ?_
    rintro rfl
    exact n.evaluate_ne_error _ heq

theorem Escape.scan_yields (place : Nat) : (Escape.scan place).Yields fun _ => True := by
  intro c
  unfold Escape.scan
  split
  · trivial
  · next h =>
    split at h
    · cases h
      simp
    · dsimp only at h
      split at h
      · cases h
      · cases h
        simp [Escape.invalid]
      · split_ifs at h
        · split at h <;> cases h
          simp [Escape.invalid]
        · cases h
          simp [Escape.invalid]

theorem scanQuotedBytes_yields (start : Nat) : (scanQuotedBytes start).Yields fun _ => True := by
  intro c
  fun_induction scanQuotedBytes start c with
  | case1 => simp
  | case2 => trivial
  | case3 read rest fault after h _ =>
    have := Escape.scan_yields read ⟨read + 1, rest⟩
    rw [h] at this
    exact this
  | case4 read rest bytes after h _ _ ih =>
    cases hr : scanQuotedBytes start after with
    | ok => trivial
    | error =>
      rw [hr] at ih
      exact ih
  | case5 read c rest _ _ ih =>
    cases hr : scanQuotedBytes start ⟨read + 1, rest⟩ with
    | ok => trivial
    | error =>
      rw [hr] at ih
      exact ih

theorem scanTerminatedMark_yields : scanTerminatedMark.Yields fun _ => True := by
  refine Scanner.Yields.get.bind fun here _ => ?_
  split
  · exact (Scanner.Yields.skip 1).bind fun _ _ => .pure trivial
  · split_ifs
    · exact (Scanner.Yields.skip 1).bind fun _ _ => .pure trivial
    · exact .pure trivial
  · exact .pure trivial

theorem scanQuoted_yields : scanQuoted.Yields fun result => ∀ text, Reading result text := by
  refine Scanner.Yields.get.bind fun start _ => (Scanner.Yields.skip 1).bind fun _ _ => ?_
  refine (scanQuotedBytes_yields start.read).bind fun bytes _ => ?_
  refine scanTerminatedMark_yields.bind fun terminated _ => ?_
  refine (Scanner.Yields.expectEnd (by simp)).bind fun _ _ => ?_
  exact .pure fun text => ⟨⟨bytes, rfl⟩, by simp⟩

theorem wordToken_reading (word : String) : Reading (wordToken word) word := by
  unfold wordToken
  split
  · exact ⟨trivial, by simp⟩
  · next kind _ h =>
    exact reading_of_isFixed (TokenKind.isFixed_of_ofSpelling? h) .none word
  · exact ⟨rfl, by simp⟩

/-- What reading a token leaves, in terms of the characters it has read. -/
def ReadsToken (c : Cursor) : EStateM.Result ScanFault Cursor (TokenKind × TokenValue) → Prop
  | .ok result d => Reading result (String.ofList (c.textTo d))
  | .error fault _ => fault.cause ≠ .lookaheadOverflow

theorem readsToken_of_yields {m : Scanner (TokenKind × TokenValue)}
    (h : m.Yields fun result => ∀ text, Reading result text) (c : Cursor) : ReadsToken c (m c) := by
  have hc := h c
  cases hr : m c with
  | ok result d =>
    rw [hr] at hc
    exact hc _
  | error fault d =>
    rw [hr] at hc
    exact hc

theorem scanWord_readsToken (c : Cursor) : ReadsToken c (scanWord c) := by
  let word := c.rest.takeWhile isWordContinue
  let after := c.skipWhile isWordContinue
  have htext : c.textTo after = word := by
    simp only [Cursor.textTo, after, word, Cursor.skipWhile, Nat.add_sub_cancel_left]
    exact (List.prefix_iff_eq_take.mp (List.takeWhile_prefix _)).symm
  have happly : scanWord c =
      (Scanner.expectEnd .invalidCharacter >>= fun _ => pure (wordToken (String.ofList word)))
        after := rfl
  have hcause : ∀ c, LexFault.invalidCharacter c ≠ .lookaheadOverflow := by simp
  have hend := Scanner.Yields.expectEnd hcause after
  rw [happly, Scanner.bind_apply]
  cases hr : Scanner.expectEnd .invalidCharacter after with
  | ok u d =>
    obtain rfl := Scanner.eq_of_expectEnd hr
    change Reading _ (String.ofList (c.textTo after))
    rw [htext]
    exact wordToken_reading _
  | error fault d =>
    rw [hr] at hend
    exact hend

theorem bracketKind?_isFixed {c : Char} {kind : TokenKind} (h : bracketKind? c = some kind) :
    kind.isFixed = true := by
  unfold bracketKind? at h
  split at h
  · cases h
    rfl
  · obtain ⟨bracket, -, rfl⟩ := Option.map_eq_some_iff.mp h
    rfl

/-- **The token at the front of the input.** -/
theorem scanToken_readsToken (c : Cursor) : ReadsToken c (scanToken c) := by
  unfold scanToken
  split
  · exact ⟨trivial, by simp⟩
  · split
    · exact readsToken_of_yields scanQuoted_yields _
    · split
      · exact readsToken_of_yields scanNumber_yields _
      · split
        · next kind hkind => exact reading_of_isFixed (bracketKind?_isFixed hkind) _ _
        · split
          · exact scanWord_readsToken _
          · intro hcause
            cases hcause

/-! ## Runs -/

theorem skipTrivia_yields : skipTrivia.Yields fun _ => True := by
  intro c
  fun_induction skipTrivia c with
  | case1 => trivial
  | case2 _ _ ih => exact ih
  | case3 _ _ _ _ h =>
    obtain ⟨-, rfl, -⟩ := skipBlockComment_eq_error.mp h
    simp
  | case4 _ _ _ _ _ _ ih => exact ih
  | case5 _ _ _ _ ih => exact ih
  | case6 _ _ _ _ _ _ _ ih => exact ih
  | case7 => trivial

namespace Lexer

/-- **A token that is read carries a value of its kind.** -/
theorem fresh_faithful {lexer after : Lexer} {token : Token} (h : lexer.fresh = (.ok token, after)) :
    token.Faithful ∧ token.kind ≠ .none := by
  unfold fresh at h
  split at h
  · cases h
  · next gap htrivia =>
    dsimp only at h
    have hscan := scanToken_readsToken (.start (lexer.moveTo gap).input)
    split at h
    · cases h
    · next kind value stop heq =>
      rw [heq] at hscan
      cases h
      exact hscan

theorem fresh_ne_lookaheadOverflow {lexer after : Lexer} {e : LexError}
    (h : lexer.fresh = (.error e, after)) : e.cause ≠ .lookaheadOverflow := by
  unfold fresh at h
  have htrivia := skipTrivia_yields (.start lexer.input)
  split at h
  · next heq =>
    rw [heq] at htrivia
    cases h
    exact htrivia
  · next gap _ =>
    dsimp only at h
    have hscan := scanToken_readsToken (.start (lexer.moveTo gap).input)
    split at h
    · next heq =>
      rw [heq] at hscan
      cases h
      exact hscan
    · cases h

theorem pending_fresh (lexer : Lexer) : lexer.fresh.2.pending = lexer.pending := by
  unfold fresh
  split
  · rfl
  · dsimp only
    split <;> rfl

/-- **What a run gives from a text.** -/
structure Whole (lexer : Lexer) (run : Run) : Prop where
  /-- Every token carries a value of its kind. -/
  faithful : ∀ token ∈ run.tokens, token.Faithful
  /-- No error says that a token waits already. -/
  error_cause : ∀ e, run.error = some e → e.cause ≠ .lookaheadOverflow
  /-- Without an error, the end of input comes once and last. -/
  ends : run.error = none → ∃ tokens last, run.tokens = tokens ++ [last] ∧ last.kind = .eof ∧
    ∀ token ∈ tokens, token.kind.isStop = false
  /-- With an error, it never comes. -/
  stops : ∀ e, run.error = some e → ∀ token ∈ run.tokens, token.kind.isStop = false
  /-- Every token but the end of input takes a character. -/
  length_le : run.tokens.length ≤ lexer.input.length + 1

theorem next_eq_fresh {lexer : Lexer} (hpending : lexer.pending = none) :
    lexer.next = lexer.fresh := by
  rw [next, hpending]

/-- **A run of a lexer without a token put back.** -/
theorem run_whole {lexer : Lexer} (hpending : lexer.pending = none) : Whole lexer lexer.run := by
  fun_induction run lexer with
  | case1 lexer e after h =>
    rw [next_eq_fresh hpending] at h
    refine ⟨fun _ ht => absurd ht List.not_mem_nil, fun e' he => ?_, fun hnone => ?_,
      fun _ _ _ ht => absurd ht List.not_mem_nil, Nat.zero_le _⟩
    · obtain rfl := Option.some.inj he
      exact fresh_ne_lookaheadOverflow h
    · cases hnone
  | case2 lexer token after h hstop =>
    rw [next_eq_fresh hpending] at h
    obtain ⟨hfaithful, hkind⟩ := fresh_faithful h
    have heof : token.kind = .eof := by
      cases hk : token.kind <;> simp_all [TokenKind.isStop]
    refine ⟨fun t ht => List.mem_singleton.mp ht ▸ hfaithful, fun _ he => absurd he (by simp),
      fun _ => ?_, fun _ he => absurd he (by simp), Nat.le_add_left _ _⟩
    exact ⟨[], token, rfl, heof, fun _ ht => absurd ht List.not_mem_nil⟩
  | case3 lexer token after h hstop hlt rest ih =>
    rw [next_eq_fresh hpending] at h
    have hafter : after.pending = none := by
      rw [← hpending, ← pending_fresh lexer, h]
    obtain ⟨hfaithful, herror, hends, hstops, hlength⟩ := ih hafter
    have htoken : token.kind.isStop = false := Bool.eq_false_iff.mpr hstop
    refine ⟨?_, herror, ?_, ?_, ?_⟩
    · exact List.forall_mem_cons.mpr ⟨(fresh_faithful h).1, hfaithful⟩
    · intro hnone
      obtain ⟨tokens, last, heq, hlast, htokens⟩ := hends hnone
      refine ⟨token :: tokens, last, by rw [List.cons_append, ← heq], hlast, ?_⟩
      exact List.forall_mem_cons.mpr ⟨htoken, htokens⟩
    · exact fun e he => List.forall_mem_cons.mpr ⟨htoken, hstops e he⟩
    · simp only [todo, hpending, hafter, Option.toList_none, List.length_nil] at hlt
      change after.run.tokens.length + 1 ≤ _
      omega

/-- **A run over a text.** -/
theorem run_ofChars_whole (source : List Char) : Whole (ofChars source) (ofChars source).run :=
  run_whole rfl

end Lexer

theorem tokenize_eq_ok {lexer : Lexer} {tokens : List Token} :
    lexer.tokenize.1 = .ok tokens ↔ lexer.run.error = none ∧ lexer.run.tokens = tokens := by
  rw [Lexer.tokenize]
  cases lexer.run.error <;> simp

end StackCompiler
