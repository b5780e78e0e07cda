import StackCompiler.Proofs.Token.Partition

/-!
# Tokens depend on their own text

A token ends at a terminator, and reading it looks no further. So what stands behind a token can be
exchanged for any other text that begins with a terminator, and tokens that were read in a row are
read again in front of another text.

* `Scanner.Local`: the text behind an end can be exchanged.
* **`scanToken_local`**: the token at the front of a text.
* `Lexer.Scans.exchange`: tokens in a row.
-/

namespace StackCompiler

/-! ## Classes of characters -/

theorem takeWhile_append_of_atEnd {p : Char → Bool} (hp : ∀ c, isTerminator c = true → p c = false)
    (w : List Char) {rest : List Char} (h : AtEnd rest) :
    (w ++ rest).takeWhile p = w.takeWhile p ∧ (w ++ rest).dropWhile p = w.dropWhile p ++ rest := by
  induction w with
  | nil =>
    cases rest with
    | nil => exact ⟨rfl, rfl⟩
    | cons c rest => simp [hp c h]
  | cons c w ih =>
    cases hc : p c with
    | true => simpa [hc] using ih
    | false => simp [hc]

/-- Every terminator. -/
def terminators : List Char := [' ', '\t', '\n', '\r', '(', '[', '\x7b', ')', ']', '\x7d']

theorem mem_terminators {c : Char} (h : isTerminator c = true) : c ∈ terminators := by
  have hopening : (Bracket.ofOpening? c).isSome = true → c ∈ terminators := by
    unfold Bracket.ofOpening?
    split <;> simp [terminators]
  have hclosing : (Bracket.ofClosing? c).isSome = true → c ∈ terminators := by
    unfold Bracket.ofClosing?
    split <;> simp [terminators]
  simp only [isTerminator, isBlank, isBracket, Bool.or_eq_true, beq_iff_eq] at h
  rcases h with (((rfl | rfl) | rfl) | rfl) | h | h
  · decide
  · decide
  · decide
  · decide
  · exact hopening h
  · exact hclosing h

/-- What holds of the characters of the list holds where a token ends. -/
theorem of_isTerminator (P : Char → Prop) [DecidablePred P]
    (hall : terminators.all (fun c => decide (P c)) = true) {c : Char}
    (h : isTerminator c = true) : P c :=
  of_decide_eq_true (List.all_eq_true.mp hall c (mem_terminators h))

theorem isDigit_of_isTerminator (base : Base) {c : Char} (h : isTerminator c = true) :
    base.isDigit c = false := by
  rw [Base.isDigit, of_isTerminator (digitValue · = none) (by decide) h]

theorem isAlphanum_of_isTerminator {c : Char} (h : isTerminator c = true) : c.isAlphanum = false := by
  exact of_isTerminator (·.isAlphanum = false) (by decide) h

theorem isWordContinue_of_isTerminator {c : Char} (h : isTerminator c = true) :
    isWordContinue c = false := by
  exact of_isTerminator (isWordContinue · = false) (by decide +kernel) h

/-! ## Scanners -/

namespace Scanner

variable {α β : Type}

/-- **The text behind an end can be exchanged.** -/
structure Local (m : Scanner α) : Prop where
  movesOn : m.MovesOn
  exchange : ∀ {n r : Nat} {w t rest rest' : List Char} {a : α}, AtEnd rest → AtEnd rest' →
    m ⟨n, w ++ rest⟩ = .ok a ⟨r, t ++ rest⟩ → m ⟨n, w ++ rest'⟩ = .ok a ⟨r, t ++ rest'⟩

/-- A result with more text behind the place where it leads. -/
def behind (rest : List Char) : EStateM.Result ScanFault Cursor α → EStateM.Result ScanFault Cursor α
  | .ok a c => .ok a ⟨c.read, c.rest ++ rest⟩
  | .error fault c => .error fault ⟨c.read, c.rest ++ rest⟩

/-- **The scanner never looks behind an end.** -/
def Ends (m : Scanner α) : Prop :=
  ∀ ⦃n : Nat⦄ ⦃w rest : List Char⦄, AtEnd rest → m ⟨n, w ++ rest⟩ = behind rest (m ⟨n, w⟩)

theorem Ends.isLocal {m : Scanner α} (h : Ends m) (hmoves : m.MovesOn) : Local m := by
  refine ⟨hmoves, ?_⟩
  intro n r w t rest rest' a hrest hrest' hok
  rw [h hrest] at hok
  rw [h hrest']
  cases hw : m ⟨n, w⟩ with
  | ok b c =>
    rw [hw] at hok
    injection hok with hb hc
    injection hc with hread ht
    rw [hb, behind, hread, List.append_cancel_right ht]
  | error fault c =>
    rw [hw] at hok
    cases hok

theorem Local.bind {m : Scanner α} {f : α → Scanner β} (hm : Local m) (hf : ∀ a, Local (f a)) :
    Local (m >>= f) := by
  refine ⟨hm.movesOn.bind fun a => (hf a).movesOn, ?_⟩
  intro n r w t rest rest' b hrest hrest' hok
  obtain ⟨a, d, hd, hb⟩ := bind_succeeds.mp hok
  obtain ⟨run, hrun, -⟩ := reaches_of_eq_ok (hf a).movesOn hb
  obtain ⟨read, left⟩ := d
  -- the second scanner leaves the text behind the end, so the first one does too
  obtain rfl : left = (run ++ t) ++ rest := by rw [List.append_assoc]; exact hrun
  exact bind_succeeds.mpr ⟨a, _, hm.exchange hrest hrest' hd, (hf a).exchange hrest hrest' hb⟩

theorem Local.pure (a : α) : Local (Pure.pure a : Scanner α) := by
  refine ⟨.pure a, ?_⟩
  intro n r w t rest rest' b _ _ hok
  injection hok with hb hc
  injection hc with hread ht
  rw [hb.symm, hread.symm, List.append_cancel_right ht]
  rfl

/-- Only the number of characters before a place matters. -/
theorem Local.get_bind {f : Cursor → Scanner α} (h : ∀ c d : Cursor, c.read = d.read → f c = f d)
    (hf : ∀ c, Local (f c)) : Local (get >>= f) := by
  refine ⟨MovesOn.get.bind fun c => (hf c).movesOn, ?_⟩
  intro n r w t rest rest' a hrest hrest' hok
  change f ⟨n, w ++ rest'⟩ ⟨n, w ++ rest'⟩ = _
  rw [h ⟨n, w ++ rest'⟩ ⟨n, w ++ rest⟩ rfl]
  exact (hf _).exchange hrest hrest' hok

theorem Local.failAt (place : Nat) (cause : LexFault) :
    Local (Scanner.failAt place cause : Scanner α) :=
  ⟨.failAt place cause, fun _ _ hok => by cases hok⟩

theorem Local.expectEnd (cause : Char → LexFault) : Local (Scanner.expectEnd cause) := by
  refine ⟨.expectEnd cause, ?_⟩
  intro n r w t rest rest' u hrest hrest' hok
  obtain ⟨hend, hc⟩ := expectEnd_eq_ok.mp hok
  injection hc with hread ht
  obtain rfl := List.append_cancel_right ht
  refine expectEnd_eq_ok.mpr ⟨?_, by rw [hread]⟩
  cases w with
  | nil => exact hrest'
  | cons c w => exact hend

theorem get_bind (f : Cursor → Scanner α) (c : Cursor) : (get >>= f) c = f c c := rfl

theorem peek_bind (f : Option Char → Scanner α) (c : Cursor) : (peek >>= f) c = f c.rest.head? c :=
  rfl

theorem Ends.takeWhile {p : Char → Bool} (hp : ∀ c, isTerminator c = true → p c = false) :
    Ends (Scanner.takeWhile p) := by
  intro n w rest hrest
  obtain ⟨htake, hdrop⟩ := takeWhile_append_of_atEnd hp w hrest
  simp only [Scanner.takeWhile, Cursor.skipWhile, behind, htake, hdrop]

end Scanner

/-! ## Numerals -/

namespace Numeral

open Scanner

theorem beginsWithDigit_append (w : List Char) {rest : List Char} (h : AtEnd rest) :
    beginsWithDigit (w ++ rest) = beginsWithDigit w := by
  cases w with
  | nil =>
    cases rest with
    | nil => rfl
    | cons c rest => exact isDigit_of_isTerminator .decimal h
  | cons c w => rfl

theorem scanSign_cons (n : Nat) (c : Char) (next : List Char) :
    scanSign ⟨n, c :: next⟩ = if c = '+' ∨ c = '-' then
      if beginsWithDigit next then .ok (some c) ⟨n + 1, next⟩
      else .error ⟨n, .missingLiteral c⟩ ⟨n, c :: next⟩
    else .ok none ⟨n, c :: next⟩ := by
  change (if c = '+' ∨ c = '-' then
    if beginsWithDigit next then Scanner.skip 1 >>= fun _ => pure (some c)
    else Scanner.failAt n (.missingLiteral c)
    else pure none : Scanner (Option Char)) _ = _
  split_ifs <;> rfl

theorem scanSign_ends : Ends scanSign := by
  intro n w rest hrest
  cases w with
  | nil =>
    cases rest with
    | nil => rfl
    | cons c rest =>
      have hsign : ¬ (c = '+' ∨ c = '-') :=
        of_isTerminator (fun c => ¬ (c = '+' ∨ c = '-')) (by decide) hrest
      rw [List.nil_append, scanSign_cons, if_neg hsign]
      rfl
  | cons c w =>
    rw [List.cons_append, scanSign_cons, scanSign_cons, beginsWithDigit_append w hrest]
    split_ifs <;> rfl

/-- The base that a text selects with its first two characters. -/
def baseMark? : List Char → Option Base
  | a :: b :: _ => if a = '0' then baseOf? b else none
  | _ => none

theorem scanBase_eq (start : Nat) (sign : Option Char) (n : Nat) (input : List Char) :
    scanBase start sign ⟨n, input⟩ = match baseMark? input with
      | none => .ok .decimal ⟨n, input⟩
      | some base => if sign.isSome then .error ⟨start, .signedBase⟩ ⟨n, input⟩
        else .ok base ⟨n + 2, input.drop 2⟩ := by
  rw [scanBase, get_bind]
  dsimp only
  split
  · next c rest =>
    simp only [baseMark?, if_true]
    cases baseOf? c with
    | none => rfl
    | some base =>
      dsimp only
      split_ifs <;> rfl
  · next hne =>
    have hnone : baseMark? input = none := by
      unfold baseMark?
      split
      · next a b rest => exact if_neg fun ha => hne b rest (by rw [ha])
      · rfl
    rw [hnone]
    rfl

theorem baseMark?_append (w : List Char) {rest : List Char} (h : AtEnd rest) :
    baseMark? (w ++ rest) = baseMark? w := by
  match w, rest with
  | [], [] | [], [_] | [_], [] | _ :: _ :: _, _ => rfl
  | [], a :: b :: rest =>
    exact if_neg (of_isTerminator (· ≠ '0') (by decide) h)
  | [a], b :: rest =>
    have hbase : baseOf? b = none := of_isTerminator (baseOf? · = none) (by decide) h
    simp [baseMark?, hbase]

theorem scanBase_ends (start : Nat) (sign : Option Char) : Ends (scanBase start sign) := by
  intro n w rest hrest
  rw [scanBase_eq, scanBase_eq, baseMark?_append w hrest]
  match w with
  | [] | [_] => rfl
  | a :: b :: w =>
    split
    · rfl
    · split_ifs <;> rfl

theorem scanDigits_local (base : Base) (missing : LexFault) : Local (scanDigits base missing) := by
  refine ⟨scanDigits_movesOn base missing, ?_⟩
  intro n r w t rest rest' digits hrest hrest' hok
  have hdigit : ∀ c, isTerminator c = true → base.isDigit c = false :=
    fun c => isDigit_of_isTerminator base
  obtain ⟨htake, hdrop⟩ := takeWhile_append_of_atEnd hdigit w hrest
  obtain ⟨htake', hdrop'⟩ := takeWhile_append_of_atEnd hdigit w hrest'
  simp only [scanDigits, Cursor.skipWhile, htake, hdrop] at hok
  simp only [scanDigits, Cursor.skipWhile, htake', hdrop']
  cases hdigits : w.takeWhile base.isDigit with
  | nil =>
    rw [hdigits] at hok
    dsimp only at hok
    split at hok <;> cases hok
  | cons c more =>
    rw [hdigits] at hok
    injection hok with hvalue hc
    injection hc with hread ht
    rw [← hvalue, ← hread, List.append_cancel_right ht]

theorem scanInteger_local (start : Nat) (base : Base) : Local (scanInteger start base) := by
  refine (scanDigits_local base .missingDigits).bind fun digits => ?_
  split
  · exact (Local.failAt _ _).bind fun _ => .pure _
  · exact .pure _

/-- Does a text begin with a point and a digit? -/
def beginsFraction (base : Base) : List Char → Bool
  | a :: b :: _ => a == '.' && (allowsPoint base && base.isDigit b)
  | _ => false

theorem scanFraction_eq (base : Base) (n : Nat) (input : List Char) :
    scanFraction base ⟨n, input⟩ =
      if beginsFraction base input then Scanner.takeWhile base.isDigit ⟨n + 1, input.drop 1⟩
      else .ok [] ⟨n, input⟩ := by
  rw [scanFraction, get_bind]
  dsimp only
  split
  · next c rest =>
    simp only [beginsFraction, beq_self_eq_true, Bool.true_and, Bool.and_eq_true]
    split_ifs <;> rfl
  · next hne =>
    have hnone : beginsFraction base input = false := by
      unfold beginsFraction
      split
      · next a b rest =>
        have ha : a ≠ '.' := fun ha => hne b rest (by rw [ha])
        simp [ha]
      · rfl
    rw [hnone]
    rfl

theorem beginsFraction_append (base : Base) (w : List Char) {rest : List Char} (h : AtEnd rest) :
    beginsFraction base (w ++ rest) = beginsFraction base w := by
  match w, rest with
  | [], [] | [], [_] | [_], [] | _ :: _ :: _, _ => rfl
  | [], a :: b :: rest =>
    have hpoint : a ≠ '.' := of_isTerminator (· ≠ '.') (by decide) h
    simp [beginsFraction, hpoint]
  | [a], b :: rest => simp [beginsFraction, isDigit_of_isTerminator base h]

theorem scanFraction_ends (base : Base) : Ends (scanFraction base) := by
  intro n w rest hrest
  rw [scanFraction_eq, scanFraction_eq, beginsFraction_append base w hrest]
  have hdigit : ∀ c, isTerminator c = true → base.isDigit c = false :=
    fun c => isDigit_of_isTerminator base
  match w with
  | [] | [_] => rfl
  | a :: b :: w =>
    split_ifs
    · exact Ends.takeWhile hdigit hrest
    · rfl

theorem scanExponentSign_cons (n : Nat) (c : Char) (rest : List Char) :
    scanExponentSign ⟨n, c :: rest⟩ =
      if c = '+' ∨ c = '-' then .ok (c == '-') ⟨n + 1, rest⟩ else .ok false ⟨n, c :: rest⟩ := by
  by_cases hplus : c = '+'
  · subst hplus
    rfl
  by_cases hminus : c = '-'
  · subst hminus
    rfl
  rw [if_neg (not_or.mpr ⟨hplus, hminus⟩), scanExponentSign, peek_bind]
  generalize hnext : (Cursor.mk n (c :: rest)).rest.head? = next
  split
  · exact absurd (Option.some.inj hnext) hplus
  · exact absurd (Option.some.inj hnext) hminus
  · rfl

theorem scanExponentSign_ends : Ends scanExponentSign := by
  intro n w rest hrest
  cases w with
  | nil =>
    cases rest with
    | nil => rfl
    | cons c rest =>
      have hsign : ¬ (c = '+' ∨ c = '-') :=
        of_isTerminator (fun c => ¬ (c = '+' ∨ c = '-')) (by decide) hrest
      rw [List.nil_append, scanExponentSign_cons, if_neg hsign]
      rfl
  | cons c w =>
    rw [List.cons_append, scanExponentSign_cons, scanExponentSign_cons]
    split_ifs <;> rfl

/-- A sign and decimal digits. -/
def exponentTail : Scanner (Option Exponent) := do
  let negative ← scanExponentSign
  let digits ← scanDigits .decimal .missingExponent
  return some ⟨negative, digits⟩

theorem scanExponent_cons (base : Base) (n : Nat) (c : Char) (rest : List Char) :
    scanExponent base ⟨n, c :: rest⟩ =
      if isExponentMark base c then exponentTail ⟨n + 1, rest⟩ else .ok none ⟨n, c :: rest⟩ := by
  rw [scanExponent, peek_bind]
  dsimp only [List.head?_cons]
  split_ifs <;> rfl

theorem scanExponent_atEnd (base : Base) (n : Nat) {rest : List Char} (h : AtEnd rest) :
    scanExponent base ⟨n, rest⟩ = .ok none ⟨n, rest⟩ := by
  cases rest with
  | nil => rfl
  | cons c rest =>
    have hmark : isExponentMark base c = false :=
      of_isTerminator (isExponentMark base · = false) (by cases base <;> decide) h
    rw [scanExponent_cons, hmark]
    rfl

theorem exponentTail_local : Local exponentTail := by
  refine (scanExponentSign_ends.isLocal scanExponentSign_movesOn).bind fun negative => ?_
  exact (scanDigits_local _ _).bind fun _ => .pure _

theorem scanExponent_local (base : Base) : Local (scanExponent base) := by
  refine ⟨scanExponent_movesOn base, ?_⟩
  intro n r w t rest rest' exponent hrest hrest' hok
  cases w with
  | nil =>
    rw [List.nil_append, scanExponent_atEnd base n hrest] at hok
    rw [List.nil_append, scanExponent_atEnd base n hrest']
    exact (Local.pure none).exchange (w := []) hrest hrest' hok
  | cons c w =>
    rw [List.cons_append, scanExponent_cons] at hok ⊢
    split_ifs at hok ⊢
    · exact exponentTail_local.exchange hrest hrest' hok
    · exact (Local.pure none).exchange (w := c :: w) hrest hrest' hok

/-- A suffix from its first character on. -/
def suffixTail (real : Bool) (start : Nat) : Scanner (Option NumberType) := do
  let suffix := String.ofList (← Scanner.takeWhile Char.isAlphanum)
  match NumberType.ofSpelling? suffix with
  | none => Scanner.failAt start (.unknownSuffix suffix)
  | some type =>
    if real ∧ ¬ type.isFloat then Scanner.failAt start (.integerSuffix suffix)
    else return some type

theorem scanSuffix_cons (real : Bool) (n : Nat) (c : Char) (rest : List Char) :
    scanSuffix real ⟨n, c :: rest⟩ =
      if isSuffixStart c then suffixTail real n ⟨n, c :: rest⟩ else .ok none ⟨n, c :: rest⟩ := by
  rw [scanSuffix, Scanner.get_bind]
  dsimp only [List.head?_cons]
  split_ifs <;> rfl

theorem scanSuffix_atEnd (real : Bool) (n : Nat) {rest : List Char} (h : AtEnd rest) :
    scanSuffix real ⟨n, rest⟩ = .ok none ⟨n, rest⟩ := by
  cases rest with
  | nil => rfl
  | cons c rest =>
    rw [scanSuffix_cons, of_isTerminator (isSuffixStart · = false) (by decide) h]
    rfl

theorem suffixTail_local (real : Bool) (start : Nat) : Local (suffixTail real start) := by
  have htake := Ends.takeWhile fun _ => isAlphanum_of_isTerminator
  refine (htake.isLocal (.takeWhile _)).bind fun suffix => ?_
  dsimp only
  split
  · exact .failAt _ _
  · split
    · exact .failAt _ _
    · exact .pure _

theorem scanSuffix_local (real : Bool) : Local (scanSuffix real) := by
  refine ⟨scanSuffix_movesOn real, ?_⟩
  intro n r w t rest rest' suffix hrest hrest' hok
  cases w with
  | nil =>
    rw [List.nil_append, scanSuffix_atEnd real n hrest] at hok
    rw [List.nil_append, scanSuffix_atEnd real n hrest']
    exact (Local.pure none).exchange (w := []) hrest hrest' hok
  | cons c w =>
    rw [List.cons_append, scanSuffix_cons] at hok ⊢
    split_ifs at hok ⊢
    · exact (suffixTail_local real n).exchange (w := c :: w) hrest hrest' hok
    · exact (Local.pure none).exchange (w := c :: w) hrest hrest' hok

theorem scan_local : Local scan := by
  refine Local.get_bind (fun c d h => by simp only [h]) fun start => ?_
  refine (scanSign_ends.isLocal scanSign_movesOn).bind fun sign => ?_
  refine ((scanBase_ends _ sign).isLocal (scanBase_movesOn _ sign)).bind fun base => ?_
  refine (scanInteger_local _ base).bind fun integer => ?_
  refine ((scanFraction_ends base).isLocal (scanFraction_movesOn base)).bind fun fraction => ?_
  refine (scanExponent_local base).bind fun exponent => ?_
  exact (scanSuffix_local _).bind fun _ => .pure _

end Numeral

/-! ## Literals and words -/

section Literals

open Scanner

theorem textTo_append {n r : Nat} {w t : List Char} (rest : List Char)
    (h : Cursor.Reaches ⟨n, w ++ rest⟩ ⟨r, t ++ rest⟩) (rest' : List Char) :
    Cursor.textTo ⟨n, w ++ rest'⟩ ⟨r, t ++ rest'⟩ = Cursor.textTo ⟨n, w ++ rest⟩ ⟨r, t ++ rest⟩ := by
  obtain ⟨run, hrun, hread⟩ := h
  have hw : w = run ++ t := by
    rw [← List.append_assoc] at hrun
    exact List.append_cancel_right hrun
  dsimp only at hread
  simp only [Cursor.textTo, hread, hw, Nat.add_sub_cancel_left, List.append_assoc, List.take_left]

/-- The value of a numeral whose text is known, read from a place to another. -/
theorem scanNumber_eq_ok {c d : Cursor} {result : TokenKind × TokenValue} :
    scanNumber c = .ok result d ↔ ∃ numeral type value, Numeral.scan c = .ok numeral d ∧
      AtEnd d.rest ∧ numeral.evaluate (String.ofList (c.textTo d)) = .ok (type, value) ∧
      result = (.number type, value) := by
  rw [scanNumber, Scanner.get_bind]
  constructor
  · intro h
    obtain ⟨numeral, d', hscan, h⟩ := bind_succeeds.mp h
    obtain ⟨_, d'', hexpect, h⟩ := bind_succeeds.mp h
    obtain ⟨hend, rfl⟩ := expectEnd_eq_ok.mp hexpect
    rw [Scanner.get_bind] at h
    cases hvalue : numeral.evaluate (String.ofList (c.textTo d')) with
    | ok value =>
      rw [hvalue] at h
      cases h
      exact ⟨numeral, value.1, value.2, hscan, hend, hvalue, rfl⟩
    | error cause =>
      rw [hvalue] at h
      cases h
  · rintro ⟨numeral, type, value, hscan, hend, hvalue, rfl⟩
    refine bind_succeeds.mpr ⟨numeral, d, hscan, bind_succeeds.mpr ⟨(), d, ?_, ?_⟩⟩
    · exact expectEnd_eq_ok.mpr ⟨hend, rfl⟩
    · rw [Scanner.get_bind, hvalue]
      rfl

theorem scanNumber_local : Local scanNumber := by
  refine ⟨scanNumber_movesOn, ?_⟩
  intro n r w t rest rest' result hrest hrest' hok
  obtain ⟨numeral, type, value, hscan, hend, hvalue, rfl⟩ := scanNumber_eq_ok.mp hok
  have hreaches := reaches_of_eq_ok Numeral.scan_movesOn hscan
  refine scanNumber_eq_ok.mpr ⟨numeral, type, value, Numeral.scan_local.exchange hrest hrest' hscan,
    ?_, ?_, rfl⟩
  · cases t with
    | nil => exact hrest'
    | cons c t => exact hend
  · rw [textTo_append rest hreaches rest', hvalue]

theorem scanWord_local : Local scanWord := by
  have htake := Ends.takeWhile fun _ => isWordContinue_of_isTerminator
  refine (htake.isLocal (.takeWhile _)).bind fun word => ?_
  exact (Local.expectEnd _).bind fun _ => .pure _

/-- A scanner that looks at nothing but what it reads. -/
def ReadsOnly {α : Type} (m : Scanner α) : Prop :=
  ∀ ⦃c d : Cursor⦄ ⦃a : α⦄, m c = .ok a d →
    ∃ run, c.rest = run ++ d.rest ∧ d.read = c.read + run.length ∧
      ∀ rest, m ⟨c.read, run ++ rest⟩ = .ok a ⟨d.read, rest⟩

theorem ReadsOnly.isLocal {α : Type} {m : Scanner α} (h : ReadsOnly m) (hmoves : m.MovesOn) :
    Local m := by
  refine ⟨hmoves, ?_⟩
  intro n r w t rest rest' a _ _ hok
  obtain ⟨run, hrun, hread, hall⟩ := h hok
  have hw : w = run ++ t := by
    rw [← List.append_assoc] at hrun
    exact List.append_cancel_right hrun
  rw [hw, List.append_assoc]
  exact hall _

namespace Escape

/-- As many characters of a class as were asked for. -/
theorem takeWhile_take_eq {p : Char → Bool} {count : Nat} {rest digits : List Char}
    (hdigits : (rest.take count).takeWhile p = digits) (hlength : digits.length = count) :
    rest = digits ++ rest.drop count ∧ ∀ c ∈ digits, p c = true := by
  have hbegins : digits <+: rest.take count := by
    rw [← hdigits]
    exact List.takeWhile_prefix _
  have htake : digits = rest.take count := by
    apply hbegins.eq_of_length_le
    rw [hlength]
    exact List.length_take_le _ _
  refine ⟨by rw [htake, List.take_append_drop], ?_⟩
  rw [← hdigits]
  exact fun c hc => List.mem_takeWhile_imp hc

/-- **An escape is a character of its own, or a selector with as many digits as it asks for.** -/
theorem scan_eq_ok {place n : Nat} {selector : Char} {rest : List Char} {bytes : List UInt8}
    {d : Cursor} : scan place ⟨n, selector :: rest⟩ = .ok bytes d ↔
      (∃ c, simple? selector = some c ∧ bytes = String.utf8EncodeChar c ∧ d = ⟨n + 1, rest⟩) ∨
      ∃ digits more, simple? selector = none ∧ digitCount? selector = some digits.length ∧
        (∀ c ∈ digits, Base.hexadecimal.isDigit c = true) ∧ rest = digits ++ more ∧
        bytesOf? selector (Base.hexadecimal.ofDigits digits) = some bytes ∧
        d = ⟨n + 1 + digits.length, more⟩ := by
  simp only [scan]
  constructor
  · intro hok
    cases hsimple : simple? selector with
    | some c =>
      simp only [hsimple] at hok
      cases hok
      exact .inl ⟨c, rfl, rfl, rfl⟩
    | none =>
      cases hcount : digitCount? selector with
      | none =>
        simp only [hsimple, hcount] at hok
        cases hok
      | some count =>
        simp only [hsimple, hcount] at hok
        generalize hdigits : (rest.take count).takeWhile Base.hexadecimal.isDigit = digits at hok
        split_ifs at hok with hlength
        obtain ⟨hrest, hhex⟩ := takeWhile_take_eq hdigits hlength
        split at hok
        · next hbytes =>
          cases hok
          refine .inr ⟨digits, rest.drop count, rfl, by rw [hlength], hhex, hrest, hbytes, ?_⟩
          rw [hrest]
          simp [Cursor.skip, hlength]
        · cases hok
  · rintro (⟨c, hsimple, rfl, rfl⟩ | ⟨digits, more, hsimple, hcount, hhex, rfl, hbytes, rfl⟩)
    · simp only [hsimple]
    · simp only [hsimple, hcount, List.take_left, List.takeWhile_eq_self_iff.mpr hhex, if_true, hbytes,
        Cursor.skip, List.drop_left]

theorem scan_readsOnly (place : Nat) : ReadsOnly (scan place) := by
  intro c d a hok
  obtain ⟨n, input⟩ := c
  cases input with
  | nil => cases hok
  | cons selector rest =>
    rcases scan_eq_ok.mp hok with
      ⟨c, hsimple, rfl, rfl⟩ | ⟨digits, more, hsimple, hcount, hhex, rfl, hbytes, rfl⟩
    · exact ⟨[selector], rfl, rfl, fun rest => scan_eq_ok.mpr (.inl ⟨c, hsimple, rfl, rfl⟩)⟩
    · refine ⟨selector :: digits, rfl, ?_, fun rest => ?_⟩
      · dsimp only [List.length_cons]
        omega
      · exact scan_eq_ok.mpr (.inr ⟨digits, rest, hsimple, hcount, hhex, rfl, hbytes, rfl⟩)

end Escape

theorem prependBytes_eq_ok {bytes : List UInt8} {more : List UInt8}
    {result : EStateM.Result ScanFault Cursor (List UInt8)} {d : Cursor} :
    prependBytes bytes result = .ok more d ↔ ∃ rest, result = .ok rest d ∧ more = bytes ++ rest := by
  cases result with
  | ok rest c =>
    simp only [prependBytes, EStateM.Result.ok.injEq]
    constructor
    · rintro ⟨rfl, rfl⟩
      exact ⟨rest, ⟨rfl, rfl⟩, rfl⟩
    · rintro ⟨_, ⟨rfl, rfl⟩, rfl⟩
      exact ⟨rfl, rfl⟩
  | error fault c => simp [prependBytes]

theorem scanQuotedBytes_escape (start : Nat) {read : Nat} {rest : List Char} {bytes : List UInt8}
    {after : Cursor} (h : Escape.scan read ⟨read + 1, rest⟩ = .ok bytes after) :
    scanQuotedBytes start ⟨read, '\\' :: rest⟩ = prependBytes bytes (scanQuotedBytes start after) := by
  rw [scanQuotedBytes, if_neg (by decide), if_pos rfl]
  split
  · next heq =>
    rw [h] at heq
    cases heq
  · next heq =>
    rw [h] at heq
    cases heq
    rfl

theorem scanQuotedBytes_readsOnly (start : Nat) : ReadsOnly (scanQuotedBytes start) := by
  intro c d a hok
  fun_induction scanQuotedBytes start c generalizing a with
  | case1 => cases hok
  | case2 read rest =>
    cases hok
    refine ⟨['\x22'], rfl, rfl, fun rest => ?_⟩
    rw [List.cons_append, scanQuotedBytes, if_pos rfl]
    rfl
  | case3 => cases hok
  | case4 read rest bytes after h _ hne ih =>
    obtain ⟨more, hmore, rfl⟩ := prependBytes_eq_ok.mp hok
    obtain ⟨run, hrun, hread, hall⟩ := Escape.scan_readsOnly read h
    obtain ⟨run', hrun', hread', hall'⟩ := ih hmore
    refine ⟨'\\' :: (run ++ run'), ?_, ?_, fun rest => ?_⟩
    · rw [List.cons_append, List.append_assoc, ← hrun', ← hrun]
    · rw [hread', hread, List.length_cons, List.length_append]
      dsimp only
      omega
    · rw [List.cons_append, List.append_assoc, scanQuotedBytes_escape start (hall (run' ++ rest))]
      exact prependBytes_eq_ok.mpr ⟨more, hall' rest, rfl⟩
  | case5 read c rest hquote hescape ih =>
    obtain ⟨more, hmore, rfl⟩ := prependBytes_eq_ok.mp hok
    obtain ⟨run, hrun, hread, hall⟩ := ih hmore
    refine ⟨c :: run, ?_, ?_, fun rest => ?_⟩
    · rw [List.cons_append, ← hrun]
    · rw [hread, List.length_cons]
      dsimp only
      omega
    · rw [List.cons_append, scanQuotedBytes, if_neg hquote, if_neg hescape]
      exact prependBytes_eq_ok.mpr ⟨more, hall rest, rfl⟩

/-- Does a text begin with the mark of a closing zero? -/
def beginsMark : List Char → Bool
  | [] => false
  | a :: [] => a == 'c'
  | a :: d :: _ => a == 'c' && isTerminator d

theorem scanTerminatedMark_eq (n : Nat) (input : List Char) :
    scanTerminatedMark ⟨n, input⟩ =
      if beginsMark input then .ok true ⟨n + 1, input.drop 1⟩ else .ok false ⟨n, input⟩ := by
  rw [scanTerminatedMark, Scanner.get_bind]
  dsimp only
  split
  · rfl
  · next d rest =>
    simp only [beginsMark, beq_self_eq_true, Bool.true_and]
    split_ifs <;> rfl
  · next hone htwo =>
    have hnone : beginsMark input = false := by
      unfold beginsMark
      split
      · rfl
      · next a =>
        have ha : a ≠ 'c' := fun ha => hone (by rw [ha])
        simp [ha]
      · next a d rest =>
        have ha : a ≠ 'c' := fun ha => htwo d rest (by rw [ha])
        simp [ha]
    rw [hnone]
    rfl

theorem beginsMark_append (w : List Char) {rest : List Char} (h : AtEnd rest) :
    beginsMark (w ++ rest) = beginsMark w := by
  match w, rest with
  | [], [] | [_], [] | _ :: _ :: _, _ => rfl
  | [], a :: rest =>
    have ha : a ≠ 'c' := of_isTerminator (· ≠ 'c') (by decide) h
    cases rest <;> simp [beginsMark, ha]
  | [a], d :: rest => simp [beginsMark, show isTerminator d = true from h]

theorem scanTerminatedMark_ends : Ends scanTerminatedMark := by
  intro n w rest hrest
  rw [scanTerminatedMark_eq, scanTerminatedMark_eq, beginsMark_append w hrest]
  cases w with
  | nil => rfl
  | cons a w => split_ifs <;> rfl

/-- A string literal behind its opening quote. -/
def quotedTail (start : Nat) : Scanner (TokenKind × TokenValue) := do
  let bytes ← scanQuotedBytes start
  let terminated ← scanTerminatedMark
  Scanner.expectEnd .trailingSymbol
  return (.string terminated, .bytes bytes)

theorem scanQuoted_cons (n : Nat) (c : Char) (rest : List Char) :
    scanQuoted ⟨n, c :: rest⟩ = quotedTail n ⟨n + 1, rest⟩ := rfl

theorem quotedTail_local (start : Nat) : Local (quotedTail start) := by
  refine ((scanQuotedBytes_readsOnly start).isLocal (scanQuotedBytes_movesOn start)).bind
    fun bytes => ?_
  refine (scanTerminatedMark_ends.isLocal scanTerminatedMark_movesOn).bind fun terminated => ?_
  exact (Local.expectEnd _).bind fun _ => .pure _

end Literals

/-! ## Tokens -/

/-- **A token depends on its own text**, and on nothing behind the end where it stops. -/
theorem scanToken_local {text rest rest' : List Char} {result : TokenKind × TokenValue}
    (htext : text ≠ []) (h : scanToken (.start (text ++ rest)) = .ok result ⟨text.length, rest⟩)
    (hrest' : AtEnd rest → AtEnd rest') :
    scanToken (.start (text ++ rest')) = .ok result ⟨text.length, rest'⟩ := by
  obtain ⟨c, text, rfl⟩ := List.exists_cons_of_ne_nil htext
  simp only [Cursor.start, List.cons_append, scanToken] at h ⊢
  -- which scanner is chosen depends on the first character only
  by_cases hquote : c = '\x22'
  · rw [if_pos hquote] at h ⊢
    have hrest := (scanQuoted_comesToEnd _ _ _ h).2
    rw [scanQuoted_cons] at h ⊢
    exact (quotedTail_local 0).exchange (t := []) hrest (hrest' hrest) h
  rw [if_neg hquote] at h ⊢
  by_cases hnumber : Base.decimal.isDigit c = true ∨ c = '+' ∨ c = '-'
  · rw [if_pos hnumber] at h ⊢
    have hrest := (scanNumber_comesToEnd _ _ _ h).2
    exact scanNumber_local.exchange (w := c :: text) (t := []) hrest (hrest' hrest) h
  rw [if_neg hnumber] at h ⊢
  cases hkind : bracketKind? c with
  | some kind =>
    rw [hkind] at h
    injection h with hresult hcursor
    injection hcursor with hread
    obtain rfl : text = [] := by simpa using hread.symm
    rw [← hresult]
    rfl
  | none =>
    rw [hkind] at h
    dsimp only at h ⊢
    split_ifs at h ⊢
    have hrest := (scanWord_comesToEnd _ _ _ h).2
    exact scanWord_local.exchange (w := c :: text) (t := []) hrest (hrest' hrest) h

theorem ne_slash_of_scanToken {n : Nat} {first : Char} {rest : List Char} {d : Cursor}
    {result : TokenKind × TokenValue} (h : scanToken ⟨n, first :: rest⟩ = .ok result d) :
    first ≠ '/' := by
  rintro rfl
  have hword : isWordStart '/' = false := by decide +kernel
  rcases scanToken_cases h with ⟨h, -⟩ | ⟨⟨_, h⟩, -⟩ | ⟨⟨_, _, h, hc⟩, -⟩ | ⟨_, kind, h, hc, -⟩ |
    ⟨⟨_, _, h, hc⟩, -⟩
  · cases h
  · cases h
  · cases h
    revert hc
    decide
  · cases h
    cases hc
  · cases h
    rw [hword] at hc
    cases hc

theorem beginsTrivia_cons {first : Char} (h : first ≠ '/') (rest : List Char) :
    beginsTrivia (first :: rest) = (first == ';' || isBlank first) := by
  unfold beginsTrivia
  split
  · next heq =>
    cases heq
    exact absurd rfl h
  · next heq =>
    cases heq
    exact absurd rfl h
  · next heq =>
    cases heq
    rfl
  · next heq => cases heq

/-- What a token begins with decides what stands before it. -/
theorem beginsTrivia_of_scanToken {text rest : List Char} {d : Cursor}
    {result : TokenKind × TokenValue} (htext : text ≠ [])
    (h : scanToken (.start (text ++ rest)) = .ok result d) (rest' : List Char) :
    beginsTrivia (text ++ rest') = beginsTrivia (text ++ rest) := by
  obtain ⟨first, text, rfl⟩ := List.exists_cons_of_ne_nil htext
  have hfirst := ne_slash_of_scanToken h
  rw [List.cons_append, List.cons_append, beginsTrivia_cons hfirst, beginsTrivia_cons hfirst]

namespace Lexer

/-- The lexer in front of another text. -/
def withInput (lexer : Lexer) (input : List Char) : Lexer := { lexer with input := input }

/-- **The text behind a token can be exchanged.** -/
theorem Reads.exchange {lexer after : Lexer} {gap : List Char} {token : Token}
    (h : lexer.Reads gap token after) (hkind : token.kind ≠ .eof) {rest : List Char}
    (hrest : AtEnd after.input → AtEnd rest) :
    (lexer.withInput (gap ++ (token.text.toList ++ rest))).Reads gap token (after.withInput rest) := by
  have htext := h.text_ne_nil hkind
  refine ⟨rfl, h.isGap.congr ?_, ?_, scanToken_local htext h.scans hrest, h.token_location,
    h.token_index, h.location, h.count, h.pending⟩
  · obtain ⟨first, text, htext⟩ := List.exists_cons_of_ne_nil htext
    rw [htext]
    exact id
  · rw [beginsTrivia_of_scanToken htext h.scans]
    exact h.begins

/-- Pieces keep their end in front of another text. -/
theorem atEnd_exchange {pieces : List Piece} (htexts : ∀ p ∈ pieces, p.token.text.toList ≠ [])
    {rest rest' : List Char} (hrest : AtEnd rest → AtEnd rest') :
    AtEnd (pieces.flatMap Piece.chars ++ rest) → AtEnd (pieces.flatMap Piece.chars ++ rest') := by
  cases pieces with
  | nil => exact hrest
  | cons p pieces =>
    obtain ⟨first, more, hp⟩ : ∃ first more, p.chars = first :: more := by
      refine List.exists_cons_of_ne_nil fun hnil => ?_
      exact htexts p (.head _) (List.append_eq_nil_iff.mp hnil).2
    rw [List.flatMap_cons, hp]
    exact id

/-- **The text behind tokens in a row can be exchanged.** -/
theorem Scans.exchange {lexer after : Lexer} {pieces : List Piece} (h : lexer.Scans pieces after)
    (hkinds : ∀ p ∈ pieces, p.token.kind ≠ .eof) {rest : List Char}
    (hrest : AtEnd after.input → AtEnd rest) :
    (lexer.withInput (pieces.flatMap Piece.chars ++ rest)).Scans pieces (after.withInput rest) := by
  induction h with
  | nil lexer => exact .nil _
  | @cons lexer middle after p pieces hread hmore ih =>
    obtain ⟨hkind, hkinds⟩ := List.forall_mem_cons.mp hkinds
    have htexts : ∀ q ∈ pieces, q.token.text.toList ≠ [] := by
      intro q hq
      obtain ⟨first, last, rfl⟩ := List.append_of_mem hq
      obtain ⟨_, _, -, hq', -⟩ := hmore.reads
      exact hq'.text_ne_nil (hkinds q hq)
    have hend : AtEnd middle.input → AtEnd (pieces.flatMap Piece.chars ++ rest) := by
      rw [hmore.input]
      exact atEnd_exchange htexts hrest
    have hfirst := hread.exchange hkind hend
    rw [← List.append_assoc] at hfirst
    rw [List.flatMap_cons, List.append_assoc]
    exact .cons hfirst (ih hkinds hrest)

end Lexer

end StackCompiler
