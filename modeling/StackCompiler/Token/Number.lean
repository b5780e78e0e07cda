import StackCompiler.Numeral.Magnitude
import StackCompiler.Token.Basic
import StackCompiler.Token.Scanner

/-!
# Numeric literals

A numeric literal is, in this order: a sign, a base, digits, a point with more digits, an exponent
and a type. Only the digits are required. A base excludes a sign; a point or an exponent needs
decimal or hexadecimal digits, and makes the literal a real number.

* `Numeral`: the parts of a literal as written.
* `Numeral.scan`: reading the parts.
* `Numeral.evaluate`: the kind and value they denote.
* `scanNumber`: both, for a literal that ends where a literal may end.
-/

namespace StackCompiler

/-- The exponent of a real number as written. -/
structure Exponent where
  /-- Is there a minus sign? -/
  negative : Bool
  /-- Its decimal digits. -/
  digits : List Char
  deriving DecidableEq, Repr

/-- The exponent as an integer. -/
def Exponent.value (e : Exponent) : Int :=
  let magnitude : Int := Base.decimal.ofDigits e.digits
  if e.negative then -magnitude else magnitude

/-- **The parts of a numeric literal.** -/
structure Numeral where
  /-- Is there a minus sign? -/
  negative : Bool
  /-- The base of the digits. -/
  base : Base
  /-- The digits before the point. -/
  integer : List Char
  /-- The digits after the point; none without a point. -/
  fraction : List Char
  /-- The exponent, if there is one. -/
  exponent : Option Exponent
  /-- The type, if it is written. -/
  suffix : Option NumberType
  deriving DecidableEq, Repr

namespace Numeral

/-! ## Reading the parts -/

/-- Does a text begin with a decimal digit? -/
def beginsWithDigit : List Char → Bool
  | [] => false
  | c :: _ => Base.decimal.isDigit c

/-- A sign, which needs a digit right after it. -/
def scanSign : Scanner (Option Char) := do
  let here ← get
  match here.rest with
  | [] => return none
  | c :: next =>
    if c = '+' ∨ c = '-' then
      if beginsWithDigit next then
        Scanner.skip 1
        return some c
      else Scanner.failAt here.read (.missingLiteral c)
    else return none

/-- The base that a letter after a zero selects. -/
def baseOf? (c : Char) : Option Base :=
  if c = 'b' ∨ c = 'B' then some .binary
  else if c = 'o' ∨ c = 'O' then some .octal
  else if c = 'x' ∨ c = 'X' then some .hexadecimal
  else none

/-- A base, written as a zero and a letter; decimal without one. -/
def scanBase (start : Nat) (sign : Option Char) : Scanner Base := do
  match (← get).rest with
  | '0' :: c :: _ =>
    match baseOf? c with
    | none => return .decimal
    | some base =>
      if sign.isSome then Scanner.failAt start .signedBase
      else
        Scanner.skip 2
        return base
  | _ => return .decimal

/-- At least one digit of a base, or a fault at what stands there instead. -/
def scanDigits (base : Base) (missing : LexFault) : Scanner (List Char) := fun here =>
  match here.rest.takeWhile base.isDigit with
  | [] =>
    match here.rest with
    | [] => .error ⟨here.read, missing⟩ here
    | c :: _ => .error ⟨here.read, .trailingSymbol c⟩ here
  | digits => .ok digits (here.skipWhile base.isDigit)

/-- The digits before the point. Decimal digits do not begin with a zero they could leave out. -/
def scanInteger (start : Nat) (base : Base) : Scanner (List Char) := do
  let digits ← scanDigits base .missingDigits
  if base = .decimal ∧ 1 < digits.length ∧ digits.head? = some '0' then
    Scanner.failAt start (.leadingZero (String.ofList digits))
  return digits

/-- Can numbers of the base have a point? -/
def allowsPoint : Base → Bool
  | .decimal | .hexadecimal => true
  | _ => false

/-- A point and the digits after it. A point with no digit after it is not read. -/
def scanFraction (base : Base) : Scanner (List Char) := do
  match (← get).rest with
  | '.' :: c :: _ =>
    if allowsPoint base ∧ base.isDigit c then
      Scanner.skip 1
      Scanner.takeWhile base.isDigit
    else return []
  | _ => return []

/-- Does the character open an exponent of a number of the base? -/
def isExponentMark (base : Base) (c : Char) : Bool :=
  match base with
  | .decimal => c == 'e' || c == 'E'
  | .hexadecimal => c == 'p' || c == 'P'
  | _ => false

/-- The sign of an exponent; `true` for a minus. -/
def scanExponentSign : Scanner Bool := do
  match ← Scanner.peek with
  | some '+' =>
    Scanner.skip 1
    return false
  | some '-' =>
    Scanner.skip 1
    return true
  | _ => return false

/-- A mark, a sign and decimal digits. -/
def scanExponent (base : Base) : Scanner (Option Exponent) := do
  match ← Scanner.peek with
  | none => return none
  | some c =>
    if isExponentMark base c then
      Scanner.skip 1
      let negative ← scanExponentSign
      let digits ← scanDigits .decimal .missingExponent
      return some ⟨negative, digits⟩
    else return none

/-- Does the character open a suffix? -/
def isSuffixStart (c : Char) : Bool := c == 'i' || c == 'u' || c == 'f'

/-- A suffix that names a type. A real number takes floating point types only. -/
def scanSuffix (real : Bool) : Scanner (Option NumberType) := do
  let here ← get
  match here.rest.head? with
  | none => return none
  | some c =>
    if isSuffixStart c then
      let suffix := String.ofList (← Scanner.takeWhile Char.isAlphanum)
      match NumberType.ofSpelling? suffix with
      | none => Scanner.failAt here.read (.unknownSuffix suffix)
      | some type =>
        if real ∧ ¬ type.isFloat then Scanner.failAt here.read (.integerSuffix suffix)
        else return some type
    else return none

/-- **Reading the parts of a literal**, which begins with a digit or a sign. -/
def scan : Scanner Numeral := do
  let start ← get
  let sign ← scanSign
  let base ← scanBase start.read sign
  let integer ← scanInteger start.read base
  let fraction ← scanFraction base
  let exponent ← scanExponent base
  let suffix ← scanSuffix (!fraction.isEmpty || exponent.isSome)
  return ⟨sign == some '-', base, integer, fraction, exponent, suffix⟩

/-! ## Progress -/

section Progress

open Scanner

theorem scanSign_movesOn : scanSign.MovesOn := by
  refine MovesOn.get.bind fun here => ?_
  split
  · exact .pure _
  · split
    · split
      · exact (MovesOn.skip 1).bind fun _ => .pure _
      · exact .failAt _ _
    · exact .pure _

theorem scanBase_movesOn (start : Nat) (sign : Option Char) : (scanBase start sign).MovesOn := by
  refine MovesOn.get.bind fun here => ?_
  split
  · split
    · exact .pure _
    · split
      · exact .failAt _ _
      · exact (MovesOn.skip 2).bind fun _ => .pure _
  · exact .pure _

theorem scanDigits_movesOn (base : Base) (missing : LexFault) :
    (scanDigits base missing).MovesOn := by
  intro here
  unfold scanDigits
  split
  · split <;> exact .refl _
  · exact here.reaches_skipWhile _

theorem scanDigits_advances (base : Base) (missing : LexFault) :
    (scanDigits base missing).Advances := by
  intro here digits after h
  unfold scanDigits at h
  split at h
  · split at h <;> cases h
  · next hne =>
    cases h
    have split_eq := congrArg List.length
      (List.takeWhile_append_dropWhile (p := base.isDigit) (l := here.rest))
    have : 0 < (here.rest.takeWhile base.isDigit).length := List.length_pos_iff.mpr hne
    rw [List.length_append] at split_eq
    simp only [Cursor.skipWhile]
    omega

theorem scanInteger_advances (start : Nat) (base : Base) : (scanInteger start base).Advances := by
  refine (scanDigits_advances base .missingDigits).bind fun digits => ?_
  split
  · exact (MovesOn.failAt _ _).bind fun _ => .pure _
  · exact .pure _

theorem scanFraction_movesOn (base : Base) : (scanFraction base).MovesOn := by
  refine MovesOn.get.bind fun here => ?_
  split
  · split
    · exact (MovesOn.skip 1).bind fun _ => .takeWhile _
    · exact .pure _
  · exact .pure _

theorem scanExponentSign_movesOn : scanExponentSign.MovesOn := by
  refine MovesOn.peek.bind fun next => ?_
  split
  · exact (MovesOn.skip 1).bind fun _ => .pure _
  · exact (MovesOn.skip 1).bind fun _ => .pure _
  · exact .pure _

theorem scanExponent_movesOn (base : Base) : (scanExponent base).MovesOn := by
  refine MovesOn.peek.bind fun next => ?_
  split
  · exact .pure _
  · split
    · refine (MovesOn.skip 1).bind fun _ => scanExponentSign_movesOn.bind fun _ => ?_
      exact (scanDigits_movesOn _ _).bind fun _ => .pure _
    · exact .pure _

theorem scanSuffix_movesOn (real : Bool) : (scanSuffix real).MovesOn := by
  refine MovesOn.get.bind fun here => ?_
  split
  · exact .pure _
  · split
    · refine (MovesOn.takeWhile _).bind fun suffix => ?_
      dsimp only
      split
      · exact .failAt _ _
      · split
        · exact .failAt _ _
        · exact .pure _
    · exact .pure _

theorem scan_advances : scan.Advances := by
  refine MovesOn.get.bind_advances fun start => ?_
  refine scanSign_movesOn.bind_advances fun sign => ?_
  refine (scanBase_movesOn start.read sign).bind_advances fun base => ?_
  refine (scanInteger_advances start.read base).bind fun integer => ?_
  refine (scanFraction_movesOn base).bind fun fraction => ?_
  refine (scanExponent_movesOn base).bind fun exponent => ?_
  exact (scanSuffix_movesOn _).bind fun _ => .pure _

end Progress

/-! ## Evaluation -/

/-- Does a point or an exponent make the literal a real number? -/
def isReal (n : Numeral) : Bool := !n.fraction.isEmpty || n.exponent.isSome

/-- Exponents of hexadecimal literals are 32-bit integers. -/
def exponentInRange (e : Int) : Bool := -(Int.pow 2 31) ≤ e && e < Int.pow 2 31

/-- **The magnitude of a literal as a real number**, in units of the 64-bit format. Binary and octal
digits are read as decimal ones. -/
def magnitude (n : Numeral) : Nat :=
  let exponent := (n.exponent.map Exponent.value).getD 0
  if n.base = .hexadecimal then
    if exponentInRange exponent then scaleByPowerOfTwo (hexMagnitude n.integer n.fraction) exponent
    else FloatFormat.double.infinity
  else decimalMagnitude (n.integer ++ n.fraction) (exponent - n.fraction.length)

/-- **The bit pattern of a literal as a real number of a type.** The narrow type rounds the number
of the 64-bit format once more. -/
def realBits (n : Numeral) (type : NumberType) (text : String) : Except LexFault UInt64 :=
  let units := n.magnitude
  let sign := if n.negative then FloatFormat.double.signBit else 0
  if FloatFormat.double.infinity ≤ units then
    .error (.numericOverflow text (.type .float64))
  else
    let bits := FloatFormat.double.bits units
    if type = .float32 then
      let narrow := FloatFormat.convert .double .single bits
      if FloatFormat.single.isFinite narrow then
        .ok (UInt64.ofNat (sign + FloatFormat.widen .single .double narrow))
      else .error (.numericOverflow text (.type .float32))
    else .ok (UInt64.ofNat (sign + bits))

/-- The integer that sign and digits denote. -/
def integerValue (n : Numeral) : Int :=
  let magnitude : Int := n.base.ofDigits n.integer
  if n.negative then -magnitude else magnitude

/-- **The value of a literal as an integer of a type.** Digits past any 64-bit integer are refused
before the type is looked at. -/
def integerToken (n : Numeral) (type : NumberType) (text : String) : Except LexFault TokenValue :=
  if Nat.pow 2 64 ≤ n.base.ofDigits n.integer then .error (.numericOverflow text .anyInteger)
  else if type.holds n.integerValue then
    match type with
    | .signed _ => .ok (.int n.integerValue)
    | _ => .ok (.uint n.integerValue.toNat)
  else .error (.numericOverflow text (.type type))

/-- **The type and value of a literal.** Without a suffix a real number has 64 bits, and an integer
is signed and has 64 bits. -/
def evaluate (n : Numeral) (text : String) : Except LexFault (NumberType × TokenValue) :=
  if n.isReal || (n.suffix.map NumberType.isFloat).getD false then do
    let type := n.suffix.getD .float64
    let bits ← n.realBits type text
    return (type, .float bits)
  else do
    let type := n.suffix.getD (.signed .w64)
    let value ← n.integerToken type text
    return (type, value)

end Numeral

/-- **Reads a numeric literal.** -/
def scanNumber : Scanner (TokenKind × TokenValue) := do
  let start ← get
  let numeral ← Numeral.scan
  Scanner.expectEnd .trailingSymbol
  let finish ← get
  match numeral.evaluate (String.ofList (start.textTo finish)) with
  | .ok (type, value) => return (.number type, value)
  | .error cause => Scanner.failAt start.read cause

theorem scanNumber_advances : scanNumber.Advances := by
  refine Scanner.MovesOn.get.bind_advances fun start => ?_
  refine Numeral.scan_advances.bind fun numeral => ?_
  refine (Scanner.MovesOn.expectEnd _).bind fun _ => ?_
  refine Scanner.MovesOn.get.bind fun finish => ?_
  split
  · exact .pure _
  · exact .failAt _ _

end StackCompiler
