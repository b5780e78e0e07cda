import StackCompiler.Proofs.Token.Locality

/-!
# Texts of scanners

What a scanner reads, said without reading from left to right: the texts it accepts, what each
denotes, and what has to stand behind it, since a scanner reads on as far as it can.

* `Avoids`: what stands behind a run of characters of a class.
* `Scanner.Spells`: the texts that a scanner reads, both ways; `Scanner.Spells.bind`.
* The parts of a numeral: `Numeral.SignText`, `Numeral.BaseText`, `Numeral.IsDigits`,
  `Numeral.FractionText`, `Numeral.ExponentText`, `Numeral.suffixText`.
-/

namespace StackCompiler

/-! ## Texts of scanners -/

/-- The text begins with no character of a class. -/
def Avoids (p : Char → Bool) (rest : List Char) : Prop := ∀ c, rest.head? = some c → p c = false

theorem avoids_nil (p : Char → Bool) : Avoids p [] := by
  rintro c ⟨⟩

theorem avoids_cons {p : Char → Bool} {c : Char} {rest : List Char} :
    Avoids p (c :: rest) ↔ p c = false := by
  simp [Avoids]

theorem avoids_append {p : Char → Bool} {text rest : List Char} (htext : Avoids p text)
    (hrest : text = [] → Avoids p rest) : Avoids p (text ++ rest) := by
  cases text with
  | nil => exact hrest rfl
  | cons c text => exact avoids_cons.mpr (avoids_cons.mp htext)

theorem AtEnd.avoids {p : Char → Bool} (hp : ∀ c, isTerminator c = true → p c = false)
    {rest : List Char} (h : AtEnd rest) : Avoids p rest := by
  cases rest with
  | nil => exact avoids_nil p
  | cons c rest => exact avoids_cons.mpr (hp c h)

section Runs

variable {p : Char → Bool}

theorem avoids_dropWhile (input : List Char) : Avoids p (input.dropWhile p) := by
  intro c hc
  have hnot := List.head?_dropWhile_not p input
  rw [hc] at hnot
  exact hnot

/-- A run of a class is read up to where it ends. -/
theorem takeWhile_append_avoids {text rest : List Char} (htext : ∀ c ∈ text, p c = true)
    (hrest : Avoids p rest) :
    (text ++ rest).takeWhile p = text ∧ (text ++ rest).dropWhile p = rest := by
  have hnone : rest.takeWhile p = [] ∧ rest.dropWhile p = rest := by
    cases rest with
    | nil => exact ⟨rfl, rfl⟩
    | cons c rest => simp [avoids_cons.mp hrest]
  rw [List.takeWhile_append_of_pos htext, List.dropWhile_append_of_pos htext, hnone.1, hnone.2]
  exact ⟨List.append_nil text, rfl⟩

end Runs

namespace Scanner

/-- **The texts that a scanner reads**, each with what it denotes. What stands behind a text may matter
too, and comes last. -/
structure Spells {α : Type} (m : Scanner α) (P : α → List Char → List Char → Prop) : Prop where
  sound : ∀ {n : Nat} {input : List Char} {a : α} {d : Cursor}, m ⟨n, input⟩ = .ok a d →
    ∃ text, input = text ++ d.rest ∧ d.read = n + text.length ∧ P a text d.rest
  complete : ∀ {n : Nat} {text rest : List Char} {a : α}, P a text rest →
    m ⟨n, text ++ rest⟩ = .ok a ⟨n + text.length, rest⟩

section Laws

variable {α β : Type} {m : Scanner α} {P : α → List Char → List Char → Prop}

theorem Spells.pure (a : α) :
    Spells (Pure.pure a : Scanner α) fun b text _ => b = a ∧ text = [] where
  sound h := by
    cases h
    exact ⟨[], rfl, rfl, rfl, rfl⟩
  complete h := by
    obtain ⟨rfl, rfl⟩ := h
    rfl

/-- What comes second stands behind what comes first. -/
theorem Spells.bind {f : α → Scanner β} {Q : α → β → List Char → List Char → Prop}
    (hm : m.Spells P) (hf : ∀ a, (f a).Spells (Q a)) :
    (m >>= f).Spells fun b text rest =>
      ∃ a front back, text = front ++ back ∧ P a front (back ++ rest) ∧ Q a b back rest where
  sound {n input b e} h := by
    obtain ⟨a, ⟨read, left⟩, hd, he⟩ := bind_succeeds.mp h
    obtain ⟨front, hinput, hread, hfront⟩ := hm.sound hd
    obtain ⟨back, hleft, hread', hback⟩ := (hf a).sound he
    dsimp only at hinput hread hfront
    subst hleft
    refine ⟨front ++ back, ?_, ?_, a, front, back, rfl, hfront, hback⟩
    · rw [hinput, List.append_assoc]
    · rw [hread', hread, List.length_append, Nat.add_assoc]
  complete {n text rest b} h := by
    obtain ⟨a, front, back, rfl, hfront, hback⟩ := h
    have hd := hm.complete (n := n) hfront
    have he := (hf a).complete (n := n + front.length) hback
    rw [List.append_assoc, List.length_append, ← Nat.add_assoc]
    exact bind_succeeds.mpr ⟨a, _, hd, he⟩

theorem Spells.get_bind {f : Cursor → Scanner α} (hf : ∀ c, (f c).Spells P) :
    (get >>= f).Spells P where
  sound h := (hf _).sound h
  complete h := (hf _).complete h

end Laws

end Scanner

namespace Numeral

open Scanner

/-! ## Signs and bases -/

/-- Signs of numbers. -/
def isSign (c : Char) : Bool := c == '+' || c == '-'

/-- A sign, which needs a digit behind it. -/
inductive SignText : Option Char → List Char → List Char → Prop where
  | absent {rest : List Char} (h : Avoids isSign rest) : SignText none [] rest
  | sign {c : Char} {rest : List Char} (hc : isSign c = true) (h : beginsWithDigit rest = true) :
      SignText (some c) [c] rest

theorem scanSign_spells : scanSign.Spells SignText where
  sound {n input sign d} h := by
    cases input with
    | nil =>
      cases h
      exact ⟨[], rfl, rfl, .absent (avoids_nil _)⟩
    | cons c input =>
      rw [scanSign_cons] at h
      split_ifs at h with hsign hdigit
      · cases h
        exact ⟨[c], rfl, rfl, .sign (by simpa [isSign] using hsign) hdigit⟩
      · cases h
        refine ⟨[], rfl, rfl, .absent (avoids_cons.mpr ?_)⟩
        simpa [isSign] using hsign
  complete {n text rest sign} h := by
    cases h with
    | absent h =>
      cases rest with
      | nil => rfl
      | cons c rest =>
        have hsign : ¬ (c = '+' ∨ c = '-') := by simpa [isSign] using avoids_cons.mp h
        rw [List.nil_append, scanSign_cons, if_neg hsign]
        rfl
    | @sign c _ hc h =>
      rw [List.singleton_append, scanSign_cons, if_pos (by simpa [isSign] using hc), if_pos h]
      rfl

/-- A base, which needs that there is no sign. -/
inductive BaseText (sign : Option Char) : Base → List Char → List Char → Prop where
  | absent {rest : List Char} (h : baseMark? rest = none) : BaseText sign .decimal [] rest
  | base {base : Base} {c : Char} {rest : List Char} (hc : baseOf? c = some base)
      (h : sign = none) : BaseText sign base ['0', c] rest

theorem scanBase_spells (start : Nat) (sign : Option Char) :
    (scanBase start sign).Spells (BaseText sign) where
  sound {n input base d} h := by
    rw [scanBase_eq] at h
    split at h
    · next hmark =>
      cases h
      exact ⟨[], rfl, rfl, .absent hmark⟩
    · next found hmark =>
      split_ifs at h with hsign
      cases h
      unfold baseMark? at hmark
      split at hmark
      · next a c rest =>
        split_ifs at hmark with ha
        subst ha
        exact ⟨['0', c], rfl, rfl, .base hmark (Option.not_isSome_iff_eq_none.mp hsign)⟩
      · cases hmark
  complete {n text rest base} h := by
    rw [scanBase_eq]
    cases h with
    | absent h =>
      rw [List.nil_append, h]
      rfl
    | @base _ c _ hc hsign =>
      have hmark : baseMark? (['0', c] ++ rest) = some base := by simp [baseMark?, hc]
      rw [hmark, hsign]
      rfl

/-! ## Digits -/

/-- Digits of a base, at least one. -/
structure IsDigits (base : Base) (digits : List Char) : Prop where
  ne_nil : digits ≠ []
  isDigit : ∀ c ∈ digits, base.isDigit c = true

theorem IsDigits.avoids_isSign {digits : List Char} (h : IsDigits .decimal digits)
    (rest : List Char) : Avoids isSign (digits ++ rest) := by
  obtain ⟨c, more, rfl⟩ := List.exists_cons_of_ne_nil h.ne_nil
  have hdigit := h.isDigit c (.head _)
  refine avoids_cons.mpr (Bool.eq_false_iff.mpr fun hsign => ?_)
  simp only [isSign, Bool.or_eq_true, beq_iff_eq] at hsign
  rcases hsign with rfl | rfl <;> exact absurd hdigit (by decide)

theorem scanDigits_spells (base : Base) (missing : LexFault) :
    (scanDigits base missing).Spells fun digits text rest =>
      text = digits ∧ IsDigits base digits ∧ Avoids base.isDigit rest where
  sound {n input digits d} h := by
    rw [scanDigits] at h
    split at h
    · split at h <;> cases h
    · next hne =>
      cases h
      refine ⟨input.takeWhile base.isDigit, List.takeWhile_append_dropWhile.symm, rfl, rfl,
        ⟨hne, fun c hc => List.mem_takeWhile_imp hc⟩, avoids_dropWhile input⟩
  complete {n text rest digits} h := by
    obtain ⟨rfl, hdigits, hrest⟩ := h
    obtain ⟨htake, hdrop⟩ := takeWhile_append_avoids hdigits.isDigit hrest
    simp only [scanDigits, Cursor.skipWhile, htake, hdrop]
    obtain ⟨c, more, rfl⟩ := List.exists_cons_of_ne_nil hdigits.ne_nil
    rfl

/-- Decimal digits do not begin with a zero that they could leave out. -/
def IsPlain (base : Base) (digits : List Char) : Prop :=
  base = .decimal → digits.head? = some '0' → digits = ['0']

theorem scanInteger_spells (start : Nat) (base : Base) :
    (scanInteger start base).Spells fun digits text rest =>
      text = digits ∧ IsDigits base digits ∧ IsPlain base digits ∧ Avoids base.isDigit rest := by
  have hplain {digits : List Char} (hdigits : IsDigits base digits) :
      IsPlain base digits ↔ ¬ (base = .decimal ∧ 1 < digits.length ∧ digits.head? = some '0') := by
    obtain ⟨c, digits, rfl⟩ := List.exists_cons_of_ne_nil hdigits.ne_nil
    cases digits with
    | nil => simp [IsPlain]
    | cons c' digits => simp [IsPlain]
  constructor
  · intro n input digits d h
    obtain ⟨found, e, hfound, h⟩ := bind_succeeds.mp h
    obtain ⟨text, hinput, hread, rfl, hdigits, hrest⟩ := (scanDigits_spells base _).sound hfound
    split_ifs at h with hzero
    · cases h
    · cases h
      exact ⟨_, hinput, hread, rfl, hdigits, (hplain hdigits).mpr hzero, hrest⟩
  · rintro n text rest digits ⟨rfl, hdigits, hzero, hrest⟩
    refine bind_succeeds.mpr ⟨_, _, (scanDigits_spells base _).complete ⟨rfl, hdigits, hrest⟩, ?_⟩
    rw [if_neg ((hplain hdigits).mp hzero)]
    rfl

/-! ## Fractions and exponents -/

/-- A point and digits behind it, or nothing. -/
inductive FractionText (base : Base) : List Char → List Char → Prop where
  | absent : FractionText base [] []
  | point {digits : List Char} (hbase : allowsPoint base = true) (h : IsDigits base digits) :
      FractionText base digits ('.' :: digits)

theorem scanFraction_spells (base : Base) :
    (scanFraction base).Spells fun fraction text rest => FractionText base fraction text ∧
      if fraction = [] then beginsFraction base rest = false else Avoids base.isDigit rest where
  sound {n input fraction d} h := by
    rw [scanFraction_eq] at h
    split_ifs at h with hbegins
    · unfold beginsFraction at hbegins
      split at hbegins
      · next a b rest =>
        simp only [Bool.and_eq_true, beq_iff_eq] at hbegins
        obtain ⟨rfl, hbase, hdigit⟩ := hbegins
        cases h
        have hne : (b :: rest).takeWhile base.isDigit ≠ [] := by simp [hdigit]
        refine ⟨'.' :: (b :: rest).takeWhile base.isDigit, ?_, ?_, .point hbase ⟨hne, ?_⟩, ?_⟩
        · rw [List.cons_append]
          exact congrArg _ List.takeWhile_append_dropWhile.symm
        · simp only [Cursor.skipWhile, List.drop_one, List.tail_cons, List.length_cons]
          omega
        · exact fun c hc => List.mem_takeWhile_imp hc
        · rw [List.drop_one, List.tail_cons, if_neg hne]
          exact avoids_dropWhile _
      · cases hbegins
    · cases h
      exact ⟨[], rfl, rfl, .absent, by simpa using hbegins⟩
  complete {n text rest fraction} h := by
    obtain ⟨htext, hrest⟩ := h
    rw [scanFraction_eq]
    cases htext with
    | absent =>
      rw [if_pos rfl] at hrest
      rw [List.nil_append, hrest]
      rfl
    | point hbase hdigits =>
      rw [if_neg hdigits.ne_nil] at hrest
      obtain ⟨htake, hdrop⟩ := takeWhile_append_avoids hdigits.isDigit hrest
      obtain ⟨c, more, rfl⟩ := List.exists_cons_of_ne_nil hdigits.ne_nil
      have hbegins : beginsFraction base ('.' :: (c :: more) ++ rest) = true := by
        simp [beginsFraction, hbase, hdigits.isDigit c (.head _)]
      rw [hbegins, if_pos rfl, List.cons_append, List.drop_one, List.tail_cons]
      simp only [Scanner.takeWhile, Cursor.skipWhile, htake, hdrop, List.length_cons]
      congr 2
      omega

/-- The sign of an exponent. -/
inductive ExponentSign : Bool → List Char → Prop where
  | absent : ExponentSign false []
  | plus : ExponentSign false ['+']
  | minus : ExponentSign true ['-']

theorem scanExponentSign_spells :
    scanExponentSign.Spells fun negative text rest =>
      ExponentSign negative text ∧ (text = [] → Avoids isSign rest) where
  sound {n input negative d} h := by
    cases input with
    | nil =>
      cases h
      exact ⟨[], rfl, rfl, .absent, fun _ => avoids_nil _⟩
    | cons c input =>
      rw [scanExponentSign_cons] at h
      split_ifs at h with hsign
      · cases h
        refine ⟨[c], rfl, rfl, ?_, fun h => by cases h⟩
        rcases hsign with rfl | rfl
        · exact .plus
        · exact .minus
      · cases h
        refine ⟨[], rfl, rfl, .absent, fun _ => avoids_cons.mpr ?_⟩
        simpa [isSign] using hsign
  complete {n text rest negative} h := by
    obtain ⟨htext, hrest⟩ := h
    cases htext with
    | absent =>
      cases rest with
      | nil => rfl
      | cons c rest =>
        have hsign : ¬ (c = '+' ∨ c = '-') := by simpa [isSign] using avoids_cons.mp (hrest rfl)
        rw [List.nil_append, scanExponentSign_cons, if_neg hsign]
        rfl
    | plus => rfl
    | minus => rfl

/-- A mark, a sign and decimal digits, or nothing. -/
inductive ExponentText (base : Base) : Option Exponent → List Char → Prop where
  | absent : ExponentText base none []
  | mark {c : Char} {negative : Bool} {sign digits : List Char}
      (hc : isExponentMark base c = true) (hsign : ExponentSign negative sign)
      (h : IsDigits .decimal digits) :
      ExponentText base (some ⟨negative, digits⟩) (c :: (sign ++ digits))

theorem exponentTail_spells :
    exponentTail.Spells fun exponent text rest => ∃ negative sign digits,
      exponent = some ⟨negative, digits⟩ ∧ text = sign ++ digits ∧ ExponentSign negative sign ∧
        IsDigits .decimal digits ∧ Avoids Base.decimal.isDigit rest := by
  have hspells := scanExponentSign_spells.bind fun negative =>
    (scanDigits_spells .decimal .missingExponent).bind fun digits =>
      Spells.pure (some (Exponent.mk negative digits))
  constructor
  · intro n input exponent d h
    obtain ⟨text, hinput, hread, negative, sign, back, rfl, ⟨hsign, -⟩, digits, _, _, rfl,
      ⟨rfl, hdigits, hrest⟩, rfl, rfl⟩ := hspells.sound h
    rw [List.append_nil] at hinput hread
    exact ⟨_, hinput, hread, negative, sign, _, rfl, rfl, hsign, hdigits, hrest⟩
  · rintro n _ rest _ ⟨negative, sign, digits, rfl, rfl, hsign, hdigits, hrest⟩
    refine hspells.complete ⟨negative, sign, digits, rfl, ⟨hsign, fun _ => ?_⟩, digits, digits, [],
      (List.append_nil _).symm, ⟨rfl, hdigits, hrest⟩, rfl, rfl⟩
    exact hdigits.avoids_isSign _

theorem scanExponent_spells (base : Base) :
    (scanExponent base).Spells fun exponent text rest => ExponentText base exponent text ∧
      if exponent = none then Avoids (isExponentMark base) rest
      else Avoids Base.decimal.isDigit rest where
  sound {n input exponent d} h := by
    cases input with
    | nil =>
      cases h
      exact ⟨[], rfl, rfl, .absent, avoids_nil _⟩
    | cons c input =>
      rw [scanExponent_cons] at h
      split_ifs at h with hmark
      · obtain ⟨text, rfl, hread, negative, sign, digits, rfl, rfl, hsign, hdigits, hrest⟩ :=
          exponentTail_spells.sound h
        refine ⟨c :: (sign ++ digits), rfl, ?_, .mark hmark hsign hdigits, hrest⟩
        rw [hread, List.length_cons]
        omega
      · cases h
        exact ⟨[], rfl, rfl, .absent, avoids_cons.mpr (Bool.eq_false_iff.mpr hmark)⟩
  complete {n text rest exponent} h := by
    obtain ⟨htext, hrest⟩ := h
    cases htext with
    | absent =>
      cases rest with
      | nil => rfl
      | cons c rest =>
        rw [List.nil_append, scanExponent_cons, avoids_cons.mp hrest]
        rfl
    | @mark c negative sign digits hc hsign hdigits =>
      have htail := exponentTail_spells.complete (n := n + 1)
        ⟨negative, sign, digits, rfl, rfl, hsign, hdigits, hrest⟩
      rw [List.cons_append, scanExponent_cons, if_pos hc, htail, List.length_cons]
      congr 2
      omega

/-! ## Types -/

/-- A type behind a number, or nothing. -/
def suffixText : Option NumberType → List Char
  | none => []
  | some type => type.spelling.toList

theorem ofSpelling?_spelling (type : NumberType) :
    NumberType.ofSpelling? type.spelling = some type := by
  rcases type with width | width | _ | _
  · cases width <;> rfl
  · cases width <;> rfl
  · rfl
  · rfl

theorem spelling_of_ofSpelling? {spelled : String} {type : NumberType}
    (h : NumberType.ofSpelling? spelled = some type) : type.spelling = spelled := by
  simpa using List.find?_some h

/-- The spelling of a type: its first character, and that it is one word. -/
theorem spelling_cons (type : NumberType) : ∃ c more, type.spelling.toList = c :: more ∧
    isSuffixStart c = true ∧ (c :: more).all Char.isAlphanum = true ∧
      (type.isFloat = false → Base.hexadecimal.isDigit c = false) := by
  rcases type with width | width | _ | _
  · cases width <;> exact ⟨_, _, rfl, by decide, by decide, by decide⟩
  · cases width <;> exact ⟨_, _, rfl, by decide, by decide, by decide⟩
  · exact ⟨_, _, rfl, by decide, by decide, by decide⟩
  · exact ⟨_, _, rfl, by decide, by decide, by decide⟩

theorem scanSuffix_spells (real : Bool) :
    (scanSuffix real).Spells fun suffix text rest => text = suffixText suffix ∧
      (real = true → ∀ type ∈ suffix, type.isFloat = true) ∧
      if suffix = none then Avoids isSuffixStart rest else Avoids Char.isAlphanum rest where
  sound {n input suffix d} h := by
    cases input with
    | nil =>
      cases h
      exact ⟨[], rfl, rfl, rfl, by simp, avoids_nil _⟩
    | cons c input =>
      rw [scanSuffix_cons] at h
      split_ifs at h with hstart
      · obtain ⟨word, e, hword, h⟩ := bind_succeeds.mp h
        cases hword
        cases htype : NumberType.ofSpelling?
          (String.ofList ((c :: input).takeWhile Char.isAlphanum)) with
        | none =>
          rw [htype] at h
          cases h
        | some type =>
          rw [htype] at h
          dsimp only at h
          split_ifs at h with hreal
          · cases h
          · cases h
            have hspelling : (c :: input).takeWhile Char.isAlphanum = suffixText (some type) := by
              rw [suffixText, spelling_of_ofSpelling? htype, String.toList_ofList]
            refine ⟨_, List.takeWhile_append_dropWhile.symm, rfl, hspelling, ?_, avoids_dropWhile _⟩
            rintro rfl _ ⟨rfl⟩
            simpa using hreal
      · cases h
        exact ⟨[], rfl, rfl, rfl, by simp, avoids_cons.mpr (Bool.eq_false_iff.mpr hstart)⟩
  complete {n text rest suffix} h := by
    obtain ⟨rfl, hreal, hrest⟩ := h
    cases suffix with
    | none =>
      cases rest with
      | nil => rfl
      | cons c rest =>
        rw [suffixText, List.nil_append, scanSuffix_cons, avoids_cons.mp hrest]
        rfl
    | some type =>
      obtain ⟨c, more, hspelling, hstart, hword, -⟩ := spelling_cons type
      obtain ⟨htake, hdrop⟩ := takeWhile_append_avoids (List.all_eq_true.mp hword) hrest
      have hfloat : ¬ (real = true ∧ ¬ type.isFloat = true) := by
        rintro ⟨hr, hf⟩
        exact hf (hreal hr type rfl)
      have htype : NumberType.ofSpelling? (String.ofList (c :: more)) = some type := by
        rw [← hspelling, String.ofList_toList, ofSpelling?_spelling]
      rw [suffixText, hspelling, List.cons_append, scanSuffix_cons, if_pos hstart, ← List.cons_append]
      refine bind_succeeds.mpr ⟨c :: more, ⟨n + (c :: more).length, rest⟩, ?_, ?_⟩
      · simp only [Scanner.takeWhile, Cursor.skipWhile, htake, hdrop]
      · rw [htype]
        dsimp only
        rw [if_neg hfloat]
        rfl

end Numeral

end StackCompiler
