import StackCompiler.Proofs.Execution.Machine

/-!
# The processor

What single instructions do to a machine. Instructions that go somewhere else than to the next line,
and calls of the operating system, are left to the program that they stand in.

* `Machine.setRegister`, `Machine.store`, `Machine.push`: changes of a machine.
* `Machine.read`, `Machine.write`: operands.
* `Instruction.exec`: **what an instruction does**. Flags that it leaves undefined are given.
* `Instruction.registers_exec_rsp`: ordinary instructions leave the stack pointer alone.
* `Machine.load_store`, `Machine.load_congr`: words in memory.
-/

namespace StackCompiler

/-! ## Words and flags -/

namespace Width

/-- The size in bytes. -/
def bytes (w : Width) : Nat := w.bits / 8

/-- The low part of a word. -/
def low (w : Width) (v : BitVec 64) : BitVec 64 := (v.setWidth w.bits).setWidth 64

/-- The highest bit of the low part of a word. -/
def sign (w : Width) (v : BitVec 64) : Bool := (v.setWidth w.bits).msb

@[simp] theorem low_w64 (v : BitVec 64) : low .w64 v = v := by simp [low, bits]

end Width

/-- **What a register holds after a part of it was set.** Setting the low half clears the rest,
smaller parts leave it. -/
def Width.setPart (w : Width) (old v : BitVec 64) : BitVec 64 :=
  match w with
  | .w64 | .w32 => w.low v
  | .w16 | .w8 => (old &&& ~~~ w.low (BitVec.allOnes 64)) ||| w.low v

@[simp] theorem Width.setPart_w64 (old v : BitVec 64) : Width.setPart .w64 old v = v :=
  Width.low_w64 v

/-- The flags of a result. -/
def Flags.ofResult (w : Width) (v : BitVec 64) (carry overflow : Bool) : Flags :=
  { zero := w.low v == 0
    sign := w.sign v
    parity := (List.range 8).countP v.getLsbD % 2 == 0
    carry := carry
    overflow := overflow }

/-- Does the last comparison have this outcome? -/
def Comparison.holds (flags : Flags) : Comparison → Bool
  | .equal => flags.zero
  | .greater => !flags.zero && flags.sign == flags.overflow
  | .greaterEqual => flags.sign == flags.overflow
  | .less => flags.sign != flags.overflow
  | .lessEqual => flags.zero || flags.sign != flags.overflow

/-- The number as a word. -/
def Immediate.word : Immediate → BitVec 64
  | .decimal value => BitVec.ofInt 64 value
  | .pattern _ bits => BitVec.ofNat 64 bits

/-! ## Registers and memory -/

namespace Machine

variable {World : Type} (s : Machine World)

/-- Sets a register or the low part of it. -/
def setRegister (r : Register) (w : Width) (v : BitVec 64) : Machine World :=
  { s with registers := fun r' => if r' = r then w.setPart (s.registers r) v else s.registers r' }

/-- **Stores the low part of a word**, whose lowest byte comes first. -/
def store (w : Width) (address v : BitVec 64) : Machine World :=
  { s with
    memory := fun a =>
      if (a - address).toNat < w.bytes then v.extractLsb' (8 * (a - address).toNat) 8
      else s.memory a }

/-- Puts a word onto the hardware stack. -/
def push (v : BitVec 64) : Machine World :=
  (s.setRegister .rsp .w64 (s.registers .rsp - 8)).store .w64 (s.registers .rsp - 8) v

section Operands

variable (address : Label → BitVec 64)

/-- **The value of an operand**, of the given width if it lies in memory. -/
def read (w : Width) : Operand → BitVec 64
  | .register r w' => w'.low (s.registers r)
  | .immediate value => value.word
  | .address l => address l
  | .pointee r => w.low (s.load (s.registers r))
  | .cell l => w.low (s.load (address l))

/-- **Sets an operand**, of the given width if it lies in memory. Numbers cannot be set. -/
def write (w : Width) (operand : Operand) (v : BitVec 64) : Option (Machine World) :=
  match operand with
  | .register r w' => some (s.setRegister r w' v)
  | .pointee r => some (s.store w (s.registers r) v)
  | .cell l => some (s.store w (address l) v)
  | .immediate _ | .address _ => none

end Operands

end Machine

/-! ## Instructions -/

/-- The width of an operand that has one. -/
def Operand.width? : Operand → Option Width
  | .register _ w => some w
  | _ => none

/-- The width of an operation: that of its target, or else that of its source. -/
def operationWidth (target source : Operand) : Width :=
  (target.width?.or source.width?).getD .w64

section Exec

variable {World : Type}

/-- The number of places to shift by: larger numbers start again. -/
def shiftCount (w : Width) (v : BitVec 64) : Nat := v.toNat % (max 32 w.bits)

/-- **The result and the flags of an operation** on two words. A comparison is a subtraction. -/
def BinaryOp.result (w : Width) (old spare : Flags) (a b : BitVec 64) :
    BinaryOp → BitVec 64 × Flags
  | .add =>
    (a + b, .ofResult w (a + b) (decide (1 <<< w.bits ≤ (w.low a).toNat + (w.low b).toNat))
      (w.sign a == w.sign b && w.sign (a + b) != w.sign a))
  | .sub | .cmp =>
    (a - b, .ofResult w (a - b) (decide ((w.low a).toNat < (w.low b).toNat))
      (w.sign a != w.sign b && w.sign (a - b) != w.sign a))
  | .and | .test => (a &&& b, .ofResult w (a &&& b) false false)
  | .or => (a ||| b, .ofResult w (a ||| b) false false)
  | .xor => (a ^^^ b, .ofResult w (a ^^^ b) false false)
  | .shl =>
    let count := shiftCount w b
    let value := w.low a <<< count
    -- Nothing is set by shifting over no places; the overflow is defined for one place only.
    (value, if count = 0 then old else
      .ofResult w value (if count ≤ w.bits then (w.low a).getLsbD (w.bits - count) else spare.carry)
        (if count = 1 then w.sign value != w.sign a else spare.overflow))
  | .shr =>
    let count := shiftCount w b
    let value := w.low a >>> count
    (value, if count = 0 then old else
      .ofResult w value (if count ≤ w.bits then (w.low a).getLsbD (count - 1) else spare.carry)
        (if count = 1 then w.sign a else spare.overflow))

/-- Does the operation only set flags? -/
def BinaryOp.onlyFlags : BinaryOp → Bool
  | .cmp | .test => true
  | _ => false

/-- The product of `rax` and a word goes to `rdx` and `rax`. -/
def Machine.multiply (s : Machine World) (spare : Flags) (v : BitVec 64) : Machine World :=
  let product := (s.registers .rax).toNat * v.toNat
  let high := BitVec.ofNat 64 (product >>> 64)
  { (s.setRegister .rax .w64 (BitVec.ofNat 64 product)).setRegister .rdx .w64 high with
    flags := { spare with carry := high != 0, overflow := high != 0 } }

/-- **What lies in `rdx` and `rax` is divided.** The processor stops if the quotient does not fit. -/
def Machine.divide (s : Machine World) (spare : Flags) (v : BitVec 64) : Option (Machine World) :=
  let dividend := (s.registers .rdx).toNat <<< 64 + (s.registers .rax).toNat
  if v = 0 ∨ 1 <<< 64 ≤ dividend / v.toNat then none
  else
    some { (s.setRegister .rax .w64 (BitVec.ofNat 64 (dividend / v.toNat))).setRegister .rdx .w64
      (BitVec.ofNat 64 (dividend % v.toNat)) with flags := spare }

/-- **What an operation with one operand does.** Multiplications and divisions are of whole words. -/
def UnaryOp.exec (address : Label → BitVec 64) (spare : Flags) (s : Machine World)
    (operand : Operand) (op : UnaryOp) : Option (Machine World) :=
  let w := operand.width?.getD .w64
  let a := s.read address w operand
  match op with
  | .not => s.write address w operand (~~~ a)
  | .inc =>
    { s with flags := .ofResult w (a + 1) s.flags.carry (!w.sign a && w.sign (a + 1)) }.write
      address w operand (a + 1)
  | .dec =>
    { s with flags := .ofResult w (a - 1) s.flags.carry (w.sign a && !w.sign (a - 1)) }.write
      address w operand (a - 1)
  | .mul => if w = .w64 then some (s.multiply spare a) else none
  | .div => if w = .w64 then s.divide spare a else none

/-- **What an instruction does**, where it goes to the next line. Flags that it leaves undefined have
the spare values. -/
def Instruction.exec (address : Label → BitVec 64) (spare : Flags) (s : Machine World) :
    Instruction → Option (Machine World)
  | .push source => some (s.push (s.read address .w64 source))
  | .pop target => some (s.pop target)
  | .mov target source =>
    let w := operationWidth target source
    s.write address w target (s.read address w source)
  | .binary op target source =>
    let w := operationWidth target source
    let (value, flags) :=
      op.result w s.flags spare (s.read address w target) (s.read address w source)
    if op.onlyFlags then some { s with flags }
    else { s with flags }.write address w target value
  | .unary op operand => op.exec address spare s operand
  | .setIf condition target =>
    s.write address .w8 target (if condition.holds s.flags then 1 else 0)
  | .moveIf condition target source =>
    let w := operationWidth target source
    s.write address w target (s.read address w (if condition.holds s.flags then source else target))
  | .jump _ | .jumpIfZero _ | .call _ | .ret | .syscall => none

end Exec

/-! ## Words in memory -/

namespace Machine

variable {World : Type} {s s' : Machine World} {r r' : Register} {w : Width} {a b v : BitVec 64}

@[simp] theorem registers_setRegister_self : (s.setRegister r w v).registers r =
    w.setPart (s.registers r) v := if_pos rfl

theorem registers_setRegister_of_ne (h : r' ≠ r) :
    (s.setRegister r w v).registers r' = s.registers r' := if_neg h

@[simp] theorem memory_setRegister : (s.setRegister r w v).memory = s.memory := rfl

@[simp] theorem load_setRegister : (s.setRegister r w v).load a = s.load a := rfl

@[simp] theorem registers_store : (s.store w a v).registers = s.registers := rfl

/-- A store changes nothing but the bytes behind its address. -/
theorem memory_store_of_le (h : w.bytes ≤ (b - a).toNat) :
    (s.store w a v).memory b = s.memory b := if_neg (Nat.not_lt.mpr h)

/-- A word depends on its eight bytes. -/
theorem load_congr (h : ∀ b, (b - a).toNat < 8 → s'.memory b = s.memory b) : s'.load a = s.load a := by
  have hbyte (i : BitVec 64) (hi : i.toNat < 8) : s'.memory (a + i) = s.memory (a + i) := by
    apply h
    rwa [show a + i - a = i by bv_omega]
  have hfirst : s'.memory a = s.memory a := by
    apply h
    simp
  simp only [load, hbyte 7 (by decide), hbyte 6 (by decide), hbyte 5 (by decide),
    hbyte 4 (by decide), hbyte 3 (by decide), hbyte 2 (by decide), hbyte 1 (by decide), hfirst]

/-- **What was stored is found again.** -/
theorem load_store : (s.store .w64 a v).load a = v := by
  have hbyte (i : BitVec 64) (hi : i.toNat < 8) :
      (s.store .w64 a v).memory (a + i) = v.extractLsb' (8 * i.toNat) 8 := by
    have hoffset : a + i - a = i := by bv_omega
    change (if (a + i - a).toNat < 8 then _ else _) = _
    rw [hoffset, if_pos hi]
  have hfirst : (s.store .w64 a v).memory a = v.extractLsb' 0 8 := by
    have hzero := hbyte 0 (by decide)
    rwa [show a + 0 = a by bv_omega] at hzero
  simp only [load, hbyte 7 (by decide), hbyte 6 (by decide), hbyte 5 (by decide),
    hbyte 4 (by decide), hbyte 3 (by decide), hbyte 2 (by decide), hbyte 1 (by decide), hfirst]
  apply BitVec.eq_of_getLsbD_eq
  intro i hi
  simp only [BitVec.getLsbD_append, BitVec.getLsbD_extractLsb']
  grind

/-- Words that lie apart do not change. -/
theorem load_store_of_apart (h : 8 ≤ (a - b).toNat) (h' : 8 ≤ (b - a).toNat) :
    (s.store .w64 a v).load b = s.load b := by
  apply load_congr
  intro c hc
  apply memory_store_of_le
  change 8 ≤ (c - a).toNat
  simp only [BitVec.toNat_sub] at h h' hc ⊢
  omega

end Machine

section Protocol

variable {World : Type} {address : Label → BitVec 64} {spare : Flags} {s : Machine World}
  {r r' : Register} {l : Label}

/-! ## Moves -/

theorem exec_mov_register : (Instruction.mov r.whole r'.whole).exec address spare s =
    some (s.setRegister r .w64 (s.registers r')) := by
  simp [Instruction.exec, Machine.write, Machine.read]

theorem exec_mov_address : (Instruction.mov r.whole (.address l)).exec address spare s =
    some (s.setRegister r .w64 (address l)) := by
  simp [Instruction.exec, Machine.write, Machine.read]

theorem exec_mov_cell : (Instruction.mov r.whole (.cell l)).exec address spare s =
    some (s.setRegister r .w64 (s.load (address l))) := by
  simp [Instruction.exec, operationWidth, Operand.width?, Machine.write, Machine.read]

theorem exec_mov_to_cell : (Instruction.mov (.cell l) r.whole).exec address spare s =
    some (s.store .w64 (address l) (s.registers r)) := by
  simp [Instruction.exec, operationWidth, Operand.width?, Machine.write, Machine.read]

end Protocol

/-! ## The stack pointer -/

/-- Is it the pointer of one of the two stacks, or a part of it? -/
def Operand.isStackPointer : Operand → Bool
  | .register .rsp _ | .cell .returnTop => true
  | _ => false

namespace Instruction

/-- Does it push or pop? -/
def usesStack : Instruction → Bool
  | .push _ | .pop _ => true
  | _ => false

/-- **Ordinary instructions** neither call nor return, and do not name the pointers of the stacks. -/
def isOrdinary : Instruction → Bool
  | .pop target => target != .rsp
  | .mov target source | .binary _ target source | .moveIf _ target source =>
    !target.isStackPointer && !source.isStackPointer
  | .push operand | .unary _ operand | .setIf _ operand => !operand.isStackPointer
  | .jump _ | .jumpIfZero _ | .syscall => true
  | .call _ | .ret => false

variable {World : Type} {address : Label → BitVec 64} {spare : Flags} {s s' : Machine World}

theorem registers_write_rsp {w : Width} {operand : Operand} {v : BitVec 64}
    (h : s.write address w operand v = some s') (hoperand : operand.isStackPointer = false) :
    s'.registers .rsp = s.registers .rsp := by
  cases operand with
  | register r w' =>
    cases h
    refine Machine.registers_setRegister_of_ne fun hr => ?_
    subst hr
    cases hoperand
  | pointee r =>
    cases h
    rfl
  | cell l =>
    cases h
    rfl
  | immediate value => cases h
  | address l => cases h

/-- **Ordinary instructions leave the stack pointer alone**, unless they push or pop. -/
theorem registers_exec_rsp {i : Instruction} (h : i.exec address spare s = some s')
    (hi : i.isOrdinary = true) (hstack : i.usesStack = false) :
    s'.registers .rsp = s.registers .rsp := by
  cases i with
  | push source => cases hstack
  | pop target => cases hstack
  | mov target source =>
    rw [isOrdinary, Bool.and_eq_true, Bool.not_eq_true'] at hi
    exact registers_write_rsp h hi.1
  | binary op target source =>
    rw [isOrdinary, Bool.and_eq_true, Bool.not_eq_true'] at hi
    rw [exec] at h
    dsimp only at h
    split at h
    · cases h
      rfl
    · have hkeep := registers_write_rsp h hi.1
      exact hkeep
  | unary op operand =>
    rw [isOrdinary, Bool.not_eq_true'] at hi
    cases op with
    | not => exact registers_write_rsp h hi
    | inc =>
      have hkeep := registers_write_rsp h hi
      exact hkeep
    | dec =>
      have hkeep := registers_write_rsp h hi
      exact hkeep
    | mul =>
      simp only [exec, UnaryOp.exec] at h
      split at h
      · cases h
        rfl
      · cases h
    | div =>
      simp only [exec, UnaryOp.exec] at h
      split at h
      · rw [Machine.divide] at h
        dsimp only at h
        split at h
        · cases h
        · cases h
          rfl
      · cases h
  | setIf condition target =>
    rw [isOrdinary, Bool.not_eq_true'] at hi
    exact registers_write_rsp h hi
  | moveIf condition target source =>
    rw [isOrdinary, Bool.and_eq_true, Bool.not_eq_true'] at hi
    exact registers_write_rsp h hi.1
  | jump l => cases h
  | jumpIfZero l => cases h
  | call l => cases hi
  | ret => cases hi
  | syscall => cases h

end Instruction

end StackCompiler
