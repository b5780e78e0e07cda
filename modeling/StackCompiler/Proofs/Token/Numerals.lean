import StackCompiler.Proofs.Token.Spelling

/-!
# Numerals as they are written

A numeral is written as a sign or a base, digits, a point and more digits, an exponent, and a type.

* `Numeral.Written`: the texts of a numeral.
* **`Numeral.scan_written`**, **`Numeral.written_of_scan`**: these are the texts that are read as it.
* `Numeral.Written.unbroken`: they go up to the first blank or bracket.
-/

namespace StackCompiler

namespace Numeral

open Scanner

/-! ## Whole numerals -/

/-- What stands before the digits: a sign, or a base without one. -/
inductive Opening : Bool → Base → List Char → Prop where
  | plain : Opening false .decimal []
  | plus : Opening false .decimal ['+']
  | minus : Opening true .decimal ['-']
  | base {base : Base} {c : Char} (hc : baseOf? c = some base) : Opening false base ['0', c]

/-- **The texts of a numeral.** -/
structure Written (n : Numeral) (text : List Char) : Prop where
  parts : ∃ opening fraction exponent,
    text = opening ++ (n.integer ++ (fraction ++ (exponent ++ suffixText n.suffix))) ∧
      Opening n.negative n.base opening ∧ FractionText n.base n.fraction fraction ∧
        ExponentText n.base n.exponent exponent
  isDigits : IsDigits n.base n.integer
  isPlain : IsPlain n.base n.integer
  /-- A real number is of a floating point type. -/
  isFloat : n.isReal = true → ∀ type ∈ n.suffix, type.isFloat = true
  /-- Behind hexadecimal digits, the name of a floating point type reads as more of them. -/
  greedy : n.base = .hexadecimal → n.exponent = none → ∀ type ∈ n.suffix, type.isFloat = false

section Behind

variable {p : Char → Bool} {base : Base} {text : List Char}

theorem FractionText.avoids {fraction : List Char} (h : FractionText base fraction text)
    (hp : p '.' = false) : Avoids p text := by
  cases h with
  | absent => exact avoids_nil p
  | point _ _ => exact avoids_cons.mpr hp

theorem FractionText.eq_nil_iff {fraction : List Char} (h : FractionText base fraction text) :
    text = [] ↔ fraction = [] := by
  cases h with
  | absent => simp
  | point _ hdigits => simp [hdigits.ne_nil]

theorem ExponentText.avoids {exponent : Option Exponent} (h : ExponentText base exponent text)
    (hp : ∀ c, isExponentMark base c = true → p c = false) : Avoids p text := by
  cases h with
  | absent => exact avoids_nil p
  | mark hc _ _ => exact avoids_cons.mpr (hp _ hc)

theorem ExponentText.eq_nil_iff {exponent : Option Exponent} (h : ExponentText base exponent text) :
    text = [] ↔ exponent = none := by
  cases h with
  | absent => simp
  | mark _ _ _ => simp

theorem suffixText_avoids (suffix : Option NumberType)
    (hp : ∀ c, isSuffixStart c = true → p c = false) : Avoids p (suffixText suffix) := by
  cases suffix with
  | none => exact avoids_nil p
  | some type =>
    obtain ⟨c, more, hspelling, hstart, -⟩ := spelling_cons type
    rw [suffixText, hspelling]
    exact avoids_cons.mpr (hp c hstart)

/-- What none of some characters is. -/
theorem eq_false_of_all {marks : List Char} (hp : (marks.all fun c => !p c) = true) {c : Char}
    (hc : c ∈ marks) : p c = false := by
  simpa using List.all_eq_true.mp hp c hc

theorem of_isExponentMark (hp : (['e', 'E', 'p', 'P'].all fun c => !p c) = true) (c : Char)
    (h : isExponentMark base c = true) : p c = false := by
  refine eq_false_of_all hp ?_
  cases base with
  | binary => cases h
  | octal => cases h
  | decimal =>
    simp only [isExponentMark, Bool.or_eq_true, beq_iff_eq] at h
    rcases h with rfl | rfl <;> simp
  | hexadecimal =>
    simp only [isExponentMark, Bool.or_eq_true, beq_iff_eq] at h
    rcases h with rfl | rfl <;> simp

theorem of_isSuffixStart (hp : (['i', 'u', 'f'].all fun c => !p c) = true) (c : Char)
    (h : isSuffixStart c = true) : p c = false := by
  refine eq_false_of_all hp ?_
  simp only [isSuffixStart, Bool.or_eq_true, beq_iff_eq] at h
  rcases h with (rfl | rfl) | rfl <;> simp

theorem isDigit_of_isExponentMark (base : Base) (c : Char) (h : isExponentMark base c = true) :
    base.isDigit c = false := by
  have hboth : (isExponentMark base c && base.isDigit c) = false := by
    refine of_isExponentMark (p := fun c => isExponentMark base c && base.isDigit c) ?_ c h
    cases base <;> decide
  rwa [h, Bool.true_and] at hboth

theorem ExponentText.avoids_behind {exponent : Option Exponent} {rest : List Char}
    (h : ExponentText base exponent text) (suffix : Option NumberType) (hrest : AtEnd rest)
    (hmark : (['e', 'E', 'p', 'P'].all fun c => !p c) = true)
    (hstart : (['i', 'u', 'f'].all fun c => !p c) = true)
    (hend : ∀ c, isTerminator c = true → p c = false) :
    Avoids p (text ++ (suffixText suffix ++ rest)) := by
  refine avoids_append (h.avoids (of_isExponentMark hmark)) fun _ => ?_
  exact avoids_append (suffixText_avoids suffix (of_isSuffixStart hstart)) fun _ => hrest.avoids hend

theorem suffixText_avoids_digits {suffix : Option NumberType}
    (h : base = .hexadecimal → ∀ type ∈ suffix, type.isFloat = false) :
    Avoids base.isDigit (suffixText suffix) := by
  by_cases hbase : base = .hexadecimal
  · cases suffix with
    | none => exact avoids_nil _
    | some type =>
      obtain ⟨c, more, hspelling, -, -, hdigit⟩ := spelling_cons type
      rw [suffixText, hspelling, hbase]
      exact avoids_cons.mpr (hdigit (h hbase type rfl))
  · refine suffixText_avoids suffix (of_isSuffixStart ?_)
    revert hbase
    cases base <;> decide

/-- Behind hexadecimal digits stands no floating point type. -/
theorem isFloat_of_avoids {suffix : Option NumberType} {rest : List Char}
    (h : Avoids Base.hexadecimal.isDigit (suffixText suffix ++ rest)) :
    ∀ type ∈ suffix, type.isFloat = false := by
  rintro type ⟨rfl⟩
  rcases type with _ | _ | _ | _
  · rfl
  · rfl
  · exact absurd (h 'f' rfl) (by decide)
  · exact absurd (h 'f' rfl) (by decide)

end Behind

theorem SignText.opening {sign : Option Char} {base : Base} {front back rest rest' : List Char}
    (hsign : SignText sign front rest) (hbase : BaseText sign base back rest') :
    Opening (sign == some '-') base (front ++ back) := by
  cases hsign with
  | absent _ =>
    cases hbase with
    | absent _ => exact .plain
    | base hc _ => exact .base hc
  | @sign c _ hc _ =>
    cases hbase with
    | absent _ =>
      simp only [isSign, Bool.or_eq_true, beq_iff_eq] at hc
      rcases hc with rfl | rfl
      · exact .plus
      · exact .minus
    | base _ hnone => cases hnone

/-- Digits that are not followed by the letter of a base name none. -/
theorem baseMark?_digits {digits rest : List Char} (hdigits : IsDigits .decimal digits)
    (hrest : Avoids (fun c => (baseOf? c).isSome) rest) : baseMark? (digits ++ rest) = none := by
  have hdigit : ∀ c, Base.decimal.isDigit c = true → baseOf? c = none := by
    intro c hc
    unfold baseOf?
    split_ifs with hb ho hx
    · rcases hb with rfl | rfl <;> exact absurd hc (by decide)
    · rcases ho with rfl | rfl <;> exact absurd hc (by decide)
    · rcases hx with rfl | rfl <;> exact absurd hc (by decide)
    · rfl
  match digits, rest with
  | [], _ => exact absurd rfl hdigits.ne_nil
  | [a], [] => rfl
  | [a], b :: rest => simpa [baseMark?] using fun _ => avoids_cons.mp hrest
  | a :: b :: digits, rest => simp [baseMark?, hdigit b (hdigits.isDigit b (by simp))]

theorem beginsFraction_of_avoids (base : Base) {rest : List Char} (h : Avoids (· == '.') rest) :
    beginsFraction base rest = false := by
  match rest with
  | [] | [_] => rfl
  | a :: b :: rest => simp [beginsFraction, avoids_cons.mp h]

/-- An opening is read up to the digits behind it. -/
theorem Opening.texts {negative : Bool} {base : Base} {opening digits rest : List Char}
    (h : Opening negative base opening) (hdigits : IsDigits base digits)
    (hrest : Avoids (fun c => (baseOf? c).isSome) rest) :
    ∃ sign front back, opening = front ++ back ∧ negative = (sign == some '-') ∧
      SignText sign front (back ++ (digits ++ rest)) ∧ BaseText sign base back (digits ++ rest) := by
  obtain ⟨c, more, rfl⟩ := List.exists_cons_of_ne_nil hdigits.ne_nil
  have hc := hdigits.isDigit c (.head _)
  cases h with
  | plain =>
    exact ⟨none, [], [], rfl, rfl, .absent (hdigits.avoids_isSign rest),
      .absent (baseMark?_digits hdigits hrest)⟩
  | plus =>
    exact ⟨some '+', ['+'], [], rfl, rfl, .sign rfl hc, .absent (baseMark?_digits hdigits hrest)⟩
  | minus =>
    exact ⟨some '-', ['-'], [], rfl, rfl, .sign rfl hc, .absent (baseMark?_digits hdigits hrest)⟩
  | @base _ letter hletter =>
    exact ⟨none, [], ['0', letter], rfl, rfl, .absent (avoids_cons.mpr rfl), .base hletter rfl⟩

/-- The parts of a numeral in a row, each read as far as it goes. -/
theorem scan_spells : scan.Spells fun n text rest => ∃ sign front back fraction exponent,
    text = front ++ (back ++ (n.integer ++ (fraction ++ (exponent ++ suffixText n.suffix)))) ∧
      n.negative = (sign == some '-') ∧
      SignText sign front
        (back ++ (n.integer ++ (fraction ++ (exponent ++ (suffixText n.suffix ++ rest))))) ∧
      BaseText sign n.base back
        (n.integer ++ (fraction ++ (exponent ++ (suffixText n.suffix ++ rest)))) ∧
      (IsDigits n.base n.integer ∧ IsPlain n.base n.integer ∧
        Avoids n.base.isDigit (fraction ++ (exponent ++ (suffixText n.suffix ++ rest)))) ∧
      (FractionText n.base n.fraction fraction ∧
        if n.fraction = [] then
          beginsFraction n.base (exponent ++ (suffixText n.suffix ++ rest)) = false
        else Avoids n.base.isDigit (exponent ++ (suffixText n.suffix ++ rest))) ∧
      (ExponentText n.base n.exponent exponent ∧
        if n.exponent = none then Avoids (isExponentMark n.base) (suffixText n.suffix ++ rest)
        else Avoids Base.decimal.isDigit (suffixText n.suffix ++ rest)) ∧
      (n.isReal = true → ∀ type ∈ n.suffix, type.isFloat = true) ∧
      if n.suffix = none then Avoids isSuffixStart rest else Avoids Char.isAlphanum rest := by
  have hspells := Spells.get_bind fun start => scanSign_spells.bind fun sign =>
    (scanBase_spells start.read sign).bind fun base =>
    (scanInteger_spells start.read base).bind fun integer =>
    (scanFraction_spells base).bind fun fraction => (scanExponent_spells base).bind fun exponent =>
    (scanSuffix_spells (!fraction.isEmpty || exponent.isSome)).bind fun suffix =>
      Spells.pure (Numeral.mk (sign == some '-') base integer fraction exponent suffix)
  constructor
  · intro k input n d h
    obtain ⟨_, hinput, hread, sign, front, _, rfl, hsign, base, back, _, rfl, hbase, integer, _, _,
      rfl, ⟨rfl, hinteger⟩, fraction, ft, _, rfl, hfraction, exponent, et, _, rfl, hexponent, suffix,
      _, _, rfl, ⟨rfl, hsuffix⟩, rfl, rfl⟩ := hspells.sound h
    simp only [List.append_assoc, List.append_nil] at *
    refine ⟨_, ?_, hread, sign, front, back, ft, et, rfl, rfl, hsign, hbase, hinteger, hfraction,
      hexponent, hsuffix⟩
    simpa only [List.append_assoc] using hinput
  · rintro k _ rest ⟨negative, base, integer, fraction, exponent, suffix⟩ ⟨sign, front, back, ft, et,
      rfl, hnegative, hsign, hbase, hinteger, hfraction, hexponent, hsuffix⟩
    dsimp only at *
    subst hnegative
    refine hspells.complete ⟨sign, front, _, rfl, ?_, base, back, _, rfl, ?_, integer, integer, _, rfl,
      ⟨rfl, ?_⟩, fraction, ft, _, rfl, ?_, exponent, et, _, rfl, ?_, suffix, _, [],
      (List.append_nil _).symm, ⟨rfl, ?_⟩, rfl, rfl⟩
    all_goals simpa only [List.append_assoc] using by assumption

/-- **What is read as a numeral is a text of it.** -/
theorem written_of_scan {k : Nat} {input : List Char} {n : Numeral} {d : Cursor}
    (h : scan ⟨k, input⟩ = .ok n d) :
    ∃ text, input = text ++ d.rest ∧ d.read = k + text.length ∧ n.Written text := by
  obtain ⟨text, hinput, hread, sign, front, back, fraction, exponent, rfl, hnegative, hsign, hbase,
    ⟨hdigits, hplain, hinteger⟩, ⟨hfraction, hpoint⟩, ⟨hexponent, -⟩, hreal, -⟩ := scan_spells.sound h
  refine ⟨_, hinput, hread, ⟨front ++ back, fraction, exponent, by simp, ?_, hfraction, hexponent⟩,
    hdigits, hplain, hreal, ?_⟩
  · rw [hnegative]
    exact hsign.opening hbase
  · intro hhex hnone
    obtain rfl := hexponent.eq_nil_iff.mpr hnone
    rw [List.nil_append] at hinteger hpoint
    rw [hhex] at hinteger hpoint
    -- the type stands behind the digits before the point, or behind those after it
    split_ifs at hpoint with hfr
    · obtain rfl := hfraction.eq_nil_iff.mpr hfr
      exact isFloat_of_avoids hinteger
    · exact isFloat_of_avoids hpoint

/-- **A text of a numeral is read as it**, and to its end. -/
theorem scan_written (k : Nat) {n : Numeral} {text rest : List Char} (h : n.Written text)
    (hrest : AtEnd rest) : scan ⟨k, text ++ rest⟩ = .ok n ⟨k + text.length, rest⟩ := by
  obtain ⟨⟨opening, fraction, exponent, rfl, hopening, hfraction, hexponent⟩, hdigits, hplain, hreal,
    hgreedy⟩ := h
  have hend {p : Char → Bool} (hp : ∀ c, isTerminator c = true → p c = false) : Avoids p rest :=
    hrest.avoids hp
  -- no part goes on in the next one
  have hdigit : ∀ c, isTerminator c = true → n.base.isDigit c = false :=
    fun c => isDigit_of_isTerminator n.base
  have hsuffix : n.exponent = none → Avoids n.base.isDigit (suffixText n.suffix ++ rest) := fun hnone =>
    avoids_append (suffixText_avoids_digits fun hhex => hgreedy hhex hnone) fun _ => hend hdigit
  have hbehind : Avoids n.base.isDigit (exponent ++ (suffixText n.suffix ++ rest)) :=
    avoids_append (hexponent.avoids (isDigit_of_isExponentMark n.base)) fun hnil =>
      hsuffix (hexponent.eq_nil_iff.mp hnil)
  have hletter : Avoids (fun c => (baseOf? c).isSome)
      (fraction ++ (exponent ++ (suffixText n.suffix ++ rest))) :=
    avoids_append (hfraction.avoids rfl) fun _ =>
      hexponent.avoids_behind n.suffix hrest (by decide) (by decide) fun c =>
        of_isTerminator (fun c => (baseOf? c).isSome = false) (by decide)
  obtain ⟨sign, front, back, rfl, hnegative, hsign, hbase⟩ := hopening.texts hdigits hletter
  rw [show front ++ back ++ (n.integer ++ (fraction ++ (exponent ++ suffixText n.suffix))) =
    front ++ (back ++ (n.integer ++ (fraction ++ (exponent ++ suffixText n.suffix)))) from
      List.append_assoc ..]
  refine scan_spells.complete ⟨sign, front, back, fraction, exponent, rfl, hnegative, hsign, hbase,
    ⟨hdigits, hplain, ?_⟩, ⟨hfraction, ?_⟩, ⟨hexponent, ?_⟩, hreal, ?_⟩
  · refine avoids_append (hfraction.avoids ?_) fun _ => hbehind
    cases n.base <;> decide
  · split_ifs with hfr
    · refine beginsFraction_of_avoids _ (hexponent.avoids_behind n.suffix hrest ?_ ?_ fun c => ?_)
      · decide
      · decide
      · exact of_isTerminator (fun c => (c == '.') = false) (by decide)
    · exact hbehind
  · split_ifs with hnone
    · refine avoids_append (suffixText_avoids _ ?_) fun _ => hend ?_
      · exact of_isSuffixStart (by cases n.base <;> decide)
      · exact fun c => of_isTerminator (isExponentMark n.base · = false) (by cases n.base <;> decide)
    · refine avoids_append (suffixText_avoids _ ?_) fun _ => hend ?_
      · exact of_isSuffixStart (by decide)
      · exact fun c => isDigit_of_isTerminator .decimal
  · split_ifs with hnone
    · exact hend fun c => of_isTerminator (isSuffixStart · = false) (by decide)
    · exact hend fun c => isAlphanum_of_isTerminator

/-! ## Ends -/

/-- No character of the text ends a literal. -/
def Unbroken (text : List Char) : Prop := ∀ c ∈ text, isTerminator c = false

theorem unbroken_cons {c : Char} {text : List Char} :
    Unbroken (c :: text) ↔ isTerminator c = false ∧ Unbroken text := List.forall_mem_cons

theorem unbroken_append {text text' : List Char} :
    Unbroken (text ++ text') ↔ Unbroken text ∧ Unbroken text' := List.forall_mem_append

theorem not_isTerminator {p : Char → Bool} (hp : ∀ c, isTerminator c = true → p c = false) {c : Char}
    (h : p c = true) : isTerminator c = false :=
  Bool.eq_false_iff.mpr fun hend => Bool.eq_false_iff.mp (hp c hend) h

theorem IsDigits.unbroken {base : Base} {digits : List Char} (h : IsDigits base digits) :
    Unbroken digits :=
  fun c hc => not_isTerminator (fun _ => isDigit_of_isTerminator base) (h.isDigit c hc)

theorem Opening.unbroken {negative : Bool} {base : Base} {opening : List Char}
    (h : Opening negative base opening) : Unbroken opening := by
  cases h with
  | plain => exact List.forall_mem_nil _
  | plus => exact unbroken_cons.mpr ⟨by decide, List.forall_mem_nil _⟩
  | minus => exact unbroken_cons.mpr ⟨by decide, List.forall_mem_nil _⟩
  | @base _ c hc =>
    have hletter : (baseOf? c).isSome = true := by rw [hc]; rfl
    refine unbroken_cons.mpr ⟨by decide, unbroken_cons.mpr ⟨?_, List.forall_mem_nil _⟩⟩
    exact not_isTerminator (p := fun c => (baseOf? c).isSome)
      (fun c => of_isTerminator (fun c => (baseOf? c).isSome = false) (by decide)) hletter

theorem FractionText.unbroken {base : Base} {fraction text : List Char}
    (h : FractionText base fraction text) : Unbroken text := by
  cases h with
  | absent => exact List.forall_mem_nil _
  | point _ hdigits => exact unbroken_cons.mpr ⟨by decide, hdigits.unbroken⟩

theorem ExponentText.unbroken {base : Base} {exponent : Option Exponent} {text : List Char}
    (h : ExponentText base exponent text) : Unbroken text := by
  cases h with
  | absent => exact List.forall_mem_nil _
  | mark hc hsign hdigits =>
    refine unbroken_cons.mpr ⟨of_isExponentMark (by decide) _ hc, ?_⟩
    refine unbroken_append.mpr ⟨?_, hdigits.unbroken⟩
    cases hsign with
    | absent => exact List.forall_mem_nil _
    | plus => exact unbroken_cons.mpr ⟨by decide, List.forall_mem_nil _⟩
    | minus => exact unbroken_cons.mpr ⟨by decide, List.forall_mem_nil _⟩

theorem suffixText_unbroken (suffix : Option NumberType) : Unbroken (suffixText suffix) := by
  cases suffix with
  | none => exact List.forall_mem_nil _
  | some type =>
    obtain ⟨c, more, hspelling, -, hword, -⟩ := spelling_cons type
    rw [suffixText, hspelling]
    exact fun d hd =>
      not_isTerminator (fun _ => isAlphanum_of_isTerminator) (List.all_eq_true.mp hword d hd)

/-- No numeral has a blank or a bracket in it. -/
theorem Written.unbroken {n : Numeral} {text : List Char} (h : n.Written text) : Unbroken text := by
  obtain ⟨opening, fraction, exponent, rfl, hopening, hfraction, hexponent⟩ := h.parts
  simp only [unbroken_append]
  exact ⟨hopening.unbroken, h.isDigits.unbroken, hfraction.unbroken, hexponent.unbroken,
    suffixText_unbroken n.suffix⟩

end Numeral

end StackCompiler
