import StackCompiler.Proofs.Execution.ReturnStack
import StackCompiler.Proofs.Execution.Straight

/-!
# What operators do

The code of an operator takes its operands from the hardware stack and leaves its results there.

* `Operator.effect`: what each operator takes, leaves and stores.
* `Operator.brings`: the instructions of an operator have this effect.
* **`operator_comes`**: so has the code of an operator wherever it stands in a program.
-/

namespace StackCompiler

open Instruction Register Machine

/-! ## Effects -/

/-- The outcome of a signed comparison. -/
def Comparison.outcome (a b : BitVec 64) : Comparison → Bool
  | .equal => a == b
  | .greater => b.toInt < a.toInt
  | .greaterEqual => b.toInt ≤ a.toInt
  | .less => a.toInt < b.toInt
  | .lessEqual => a.toInt ≤ b.toInt

/-- One or zero. -/
def truthWord (b : Bool) : BitVec 64 := if b then 1 else 0

section Effects

variable {World : Type}

/-- **What an operator does**, where `b` is the top of the stack, `a` the cell below it and `x` the
cell below that. Of a system call, this is what it does before the system is called. -/
def Operator.effect (s : Machine World) : Operator → StackEffect :=
  let b := s.cell 0
  let a := s.cell 1
  let x := s.cell 2
  fun
  | .add => ⟨2, [a + b], none⟩
  | .sub => ⟨2, [a - b], none⟩
  | .mul => ⟨2, [a * b], none⟩
  | .div => ⟨2, [a / b], none⟩
  | .mod => ⟨2, [a % b], none⟩
  | .divMod => ⟨2, [a / b, a % b], none⟩
  | .inc => ⟨1, [b + 1], none⟩
  | .dec => ⟨1, [b - 1], none⟩
  | .logicalNot => ⟨1, [truthWord (b == 0)], none⟩
  | .logicalAnd | .bitAnd => ⟨2, [a &&& b], none⟩
  | .logicalOr | .bitOr => ⟨2, [a ||| b], none⟩
  | .logicalXor | .bitXor => ⟨2, [a ^^^ b], none⟩
  | .bitNot => ⟨1, [~~~b], none⟩
  | .shiftLeft => ⟨2, [a <<< (b.toNat % 64)], none⟩
  | .shiftRight => ⟨2, [a >>> (b.toNat % 64)], none⟩
  | .equal => ⟨2, [truthWord (Comparison.equal.outcome a b)], none⟩
  | .notEqual => ⟨2, [truthWord (!Comparison.equal.outcome a b)], none⟩
  | .greater => ⟨2, [truthWord (Comparison.greater.outcome a b)], none⟩
  | .greaterEqual => ⟨2, [truthWord (Comparison.greaterEqual.outcome a b)], none⟩
  | .less => ⟨2, [truthWord (Comparison.less.outcome a b)], none⟩
  | .lessEqual => ⟨2, [truthWord (Comparison.lessEqual.outcome a b)], none⟩
  | .drop => ⟨1, [], none⟩
  | .dup => ⟨1, [b, b], none⟩
  | .over => ⟨2, [a, b, a], none⟩
  | .rot => ⟨3, [a, b, x], none⟩
  | .swap => ⟨2, [b, a], none⟩
  | .load w => ⟨1, [w.low (s.load b)], none⟩
  | .store w => ⟨2, [], some (w, b, a)⟩
  | .syscall arguments => ⟨syscallArity arguments + 1, [], none⟩
  | .constant value => ⟨0, [truthWord value], none⟩

/-- **The machine asks the system**: the number of the call and its arguments have been taken from the
stack and lie in their registers. -/
structure Machine.Asks (s : Machine World) (arguments : Fin 6) (t : Machine World) : Prop where
  number : t.registers .rax = s.cell 0
  parameters : ∀ i r, (argumentRegisters.take (syscallArity arguments))[i]? = some r →
    t.registers r = s.cell (i + 1)
  undergoes : s.Undergoes (Operator.effect s (.syscall arguments)) t

/-- **What an operator does to a machine.** A system call asks the system and leaves what the system
left in `rax`. -/
def Operator.Does (P : Platform World) (s t : Machine World) : Operator → Prop
  | .syscall arguments => ∃ called returned, s.Asks arguments called ∧ P.kernel called returned ∧
      returned.Undergoes ⟨0, [returned.registers .rax], none⟩ t
  | op => s.Undergoes (op.effect s) t

end Effects

namespace Operator

def isDivision : Operator → Bool
  | .div | .mod | .divMod => true
  | _ => false

def isSyscall : Operator → Bool
  | .syscall _ => true
  | _ => false

end Operator

/-! ## Results and flags -/

namespace BinaryOp

/-- The result of an operation on two words. -/
def value (w : Width) (a b : BitVec 64) (op : BinaryOp) : BitVec 64 :=
  (op.result w ⟨false, false, false, false, false⟩ ⟨false, false, false, false, false⟩ a b).1

/-- The result does not depend on the flags. -/
theorem result_fst (w : Width) (old spare : Flags) (a b : BitVec 64) (op : BinaryOp) :
    (op.result w old spare a b).1 = op.value w a b := by
  cases op <;> rfl

end BinaryOp

/-- The result of an operation on one word, if there is one only. -/
def UnaryOp.value? (a : BitVec 64) : UnaryOp → Option (BitVec 64)
  | .not => some (~~~a)
  | .inc => some (a + 1)
  | .dec => some (a - 1)
  | .mul | .div => none

/-- **Sign and overflow of a difference tell which number is smaller.** -/
theorem sign_ne_overflow (a b : BitVec 64) :
    (Width.sign .w64 (a - b) !=
      (Width.sign .w64 a != Width.sign .w64 b && Width.sign .w64 (a - b) != Width.sign .w64 a)) =
      decide (a.toInt < b.toInt) := by
  have hsign (v : BitVec 64) : Width.sign .w64 v = decide (2 ^ 63 ≤ v.toNat) := by
    simp [Width.sign, Width.bits, BitVec.msb_eq_decide]
  have ha := a.isLt
  have hb := b.isLt
  rw [hsign, hsign, hsign, BitVec.toInt_eq_toNat_cond, BitVec.toInt_eq_toNat_cond, BitVec.toNat_sub]
  by_cases h₁ : 2 ^ 63 ≤ a.toNat <;> by_cases h₂ : 2 ^ 63 ≤ b.toNat <;>
    by_cases h₃ : 2 ^ 63 ≤ (2 ^ 64 - b.toNat + a.toNat) % 2 ^ 64 <;>
    simp only [h₁, h₂, h₃, decide_true, decide_false] <;> simp <;> omega

/-- **Comparing sets the flags to the outcome of the comparison.** -/
theorem holds_cmp (c : Comparison) (old spare : Flags) (a b : BitVec 64) :
    c.holds (BinaryOp.cmp.result .w64 old spare a b).2 = c.outcome a b := by
  let flags := (BinaryOp.cmp.result .w64 old spare a b).2
  have hzero : flags.zero = decide (a.toInt = b.toInt) := by
    have hsub : a - b = 0#64 ↔ a = b := by bv_omega
    simp [flags, BinaryOp.result, Flags.ofResult, BitVec.toInt_inj, beq_eq_decide, hsub]
  have hless : (flags.sign != flags.overflow) = decide (a.toInt < b.toInt) := sign_ne_overflow a b
  have hless' : (flags.sign == flags.overflow) = decide (b.toInt ≤ a.toInt) := by
    have hnot (x y : Bool) : (x == y) = !(x != y) := by cases x <;> cases y <;> rfl
    rw [hnot, hless, ← decide_not]
    exact decide_eq_decide.mpr Int.not_lt
  change c.holds flags = _
  cases c with
  | equal =>
    rw [Comparison.holds, hzero, Comparison.outcome, beq_eq_decide,
      decide_eq_decide.mpr BitVec.toInt_inj]
  | greater =>
    simp only [Comparison.holds, Comparison.outcome, hzero, hless']
    rw [← decide_not, ← Bool.decide_and]
    exact decide_eq_decide.mpr (by omega)
  | greaterEqual => exact hless'
  | less => exact hless
  | lessEqual =>
    simp only [Comparison.holds, Comparison.outcome, hzero, hless]
    rw [← Bool.decide_or]
    exact decide_eq_decide.mpr (by omega)

/-! ## Single instructions -/

section Instructions

variable {World : Type} {address : Label → BitVec 64} {spare : Flags} {s : Machine World}
  {r r' : Register} {op : BinaryOp} {v : BitVec 64} {w w' : Width} {n : Nat}

@[simp] theorem exec_pop : (pop r).exec address spare s = some (s.pop r) := rfl

@[simp] theorem exec_push : (push r.whole).exec address spare s = some (s.push (s.registers r)) := by
  simp [exec, Machine.read]

@[simp] theorem word_decimal (n : Int) : (Immediate.decimal n).word = BitVec.ofInt 64 n := rfl

@[simp] theorem exec_mov_immediate (value : Immediate) :
    (mov r.whole (.immediate value)).exec address spare s =
      some (s.setRegister r .w64 value.word) := by
  simp [exec, Machine.write, Machine.read]

@[simp] theorem exec_mov_pointee : (mov (.register r w) (.pointee r')).exec address spare s =
    some (s.setRegister r w (w.low (s.load (s.registers r')))) := by
  simp [exec, Machine.write, Machine.read, operationWidth, Operand.width?]

@[simp] theorem exec_mov_to_pointee : (mov (.pointee r) (.register r' w)).exec address spare s =
    some (s.store w (s.registers r) (w.low (s.registers r'))) := by
  simp [exec, Machine.write, Machine.read, operationWidth, Operand.width?]

/-- An operation on registers, up to flags. -/
theorem exec_binary (hop : op.onlyFlags = false) :
    (binary op (.register r w) (.register r' w')).exec address spare s =
      some ((s.flagged
          (op.result w s.flags spare (w.low (s.registers r))
            (w'.low (s.registers r'))).2).setRegister r w
        (op.value w (w.low (s.registers r)) (w'.low (s.registers r')))) := by
  simp [flagged, exec, Machine.write, Machine.read, operationWidth, Operand.width?, hop,
    BinaryOp.result_fst]

/-- Combining a register with itself is a way to clear it. -/
@[simp] theorem exec_xor_self :
    (binary .xor (.register r w) (.register r w)).exec address spare s =
      some ((s.flagged (.ofResult w 0#64 false false)).setRegister r w 0#64) := by
  rw [exec_binary rfl]
  simp [BinaryOp.result, BinaryOp.value]

@[simp] theorem exec_cmp : (binary .cmp r.whole r'.whole).exec address spare s =
    some (s.flagged (BinaryOp.cmp.result .w64 s.flags spare (s.registers r) (s.registers r')).2) := by
  simp [flagged, exec, Machine.read, operationWidth, Operand.width?, BinaryOp.onlyFlags]

@[simp] theorem exec_cmp_number (n : Int) : (binary .cmp r.whole (.number n)).exec address spare s =
    some (s.flagged
      (BinaryOp.cmp.result .w64 s.flags spare (s.registers r) (BitVec.ofInt 64 n)).2) := by
  simp [flagged, exec, Machine.read, operationWidth, Operand.width?, BinaryOp.onlyFlags,
    Immediate.word]

@[simp] theorem exec_moveIf (c : Comparison) : (moveIf c r.whole r'.whole).exec address spare s =
    some (s.setRegister r .w64 (if c.holds s.flags then s.registers r' else s.registers r)) := by
  by_cases h : c.holds s.flags <;>
    simp [exec, Machine.write, Machine.read, h]

@[simp] theorem exec_setIf (c : Comparison) : (setIf c (.register r .w8)).exec address spare s =
    some (s.setRegister r .w8 (truthWord (c.holds s.flags))) := rfl

@[simp] theorem exec_mul : (unary .mul r.whole).exec address spare s =
    some (s.multiply spare (s.registers r)) := by
  simp [exec, UnaryOp.exec, Operand.width?, Machine.read]

@[simp] theorem exec_div : (unary .div r.whole).exec address spare s =
    s.divide spare (s.registers r) := by
  simp [exec, UnaryOp.exec, Operand.width?, Machine.read]

/-- An operation on one register, up to flags. -/
theorem exec_unary {op : UnaryOp} (hop : op.value? (s.registers r) = some v) :
    ∃ f, (unary op r.whole).exec address spare s = some ((s.flagged f).setRegister r .w64 v) := by
  cases op with
  | not | inc | dec =>
    cases hop
    simp only [exec, UnaryOp.exec, Operand.width?, Machine.read, Machine.write, Width.low_w64,
      Option.getD_some]
    exact ⟨_, rfl⟩
  | mul | div => cases hop

/-! ### Registers, cells and words behind them -/

@[simp] theorem registers_pop (hr' : r' ≠ .rsp) :
    (s.pop r).registers r' = if r' = r then s.cell 0 else s.registers r' := by
  simp only [Machine.pop, top_eq_cell, if_neg hr']

@[simp] theorem registers_push (hr : r ≠ .rsp) : (s.push v).registers r = s.registers r := by
  simp only [Machine.push, Machine.registers_store, Machine.registers_setRegister_of_ne hr]

theorem registers_setRegister (r' : Register) : (s.setRegister r w v).registers r' =
    if r' = r then w.setPart (s.registers r) v else s.registers r' := rfl

@[simp] theorem registers_flagged (f : Flags) : (s.flagged f).registers = s.registers := rfl

@[simp] theorem flags_flagged (f : Flags) : (s.flagged f).flags = f := rfl

/-- The low half of a product is left in `rax`. -/
@[simp] theorem registers_multiply :
    (s.multiply spare v).registers .rax = s.registers .rax * v := by
  simp [multiply, registers_setRegister, BitVec.ofNat_mul]

@[simp] theorem bare_multiply : (s.multiply spare v).bare = s.bare := by
  let high := BitVec.ofNat 64 (((s.registers .rax).toNat * v.toNat) >>> 64)
  change (((s.setRegister .rax .w64 _).setRegister .rdx .w64 high).flagged _).bare = s.bare
  simp

@[simp] theorem load_pop (a : BitVec 64) : (s.pop r).load a = s.load a := rfl

@[simp] theorem load_flagged (f : Flags) (a : BitVec 64) : (s.flagged f).load a = s.load a := rfl

@[simp] theorem Width.low_low : w.low (w.low v) = w.low v := by
  cases w <;> simp [Width.low, Width.bits]

@[simp] theorem Width.setPart_zero : w.setPart 0#64 v = w.low v := by
  cases w <;> simp [Width.setPart]

/-- Clearing the low half of a register clears it all. -/
@[simp] theorem Width.setPart_w32_zero : Width.setPart .w32 v 0#64 = 0#64 := rfl

@[simp] theorem low_truthWord (b : Bool) : w.low (truthWord b) = truthWord b := by
  cases w <;> cases b <;> rfl

/-- Only the low part of a word is stored. -/
theorem store_low (a : BitVec 64) : s.store w a (w.low v) = s.store w a v := by
  simp only [Machine.store]
  congr 1
  funext b
  split
  · next h =>
    apply BitVec.eq_of_getLsbD_eq
    intro i hi
    simp only [BitVec.getLsbD_extractLsb', Width.low, BitVec.getLsbD_setWidth]
    have hbits : 8 * w.bytes = w.bits := by cases w <;> rfl
    have hle : w.bits ≤ 64 := by cases w <;> decide
    have hlow : 8 * (b - a).toNat + i < w.bits := by omega
    have hword : 8 * (b - a).toNat + i < 64 := by omega
    simp only [hlow, hword, decide_true, Bool.true_and]
  · rfl

end Instructions

/-! ## Families of operators -/

section Families

variable {World : Type} {address : Label → BitVec 64} {s : Machine World} {e : StackEffect}

/-- To have an effect is to lead to the machine after it, up to registers and flags. -/
theorem brings_undergoes {is : List Instruction} (he : e.left.length ≤ 3)
    (h : s.Brings address (fun t => t.bare = s.bare.after e) is) :
    s.Brings address (s.Undergoes e) is :=
  h.mono fun _ ht => undergoes_of_bare (by omega) ht

theorem symmetricCode_brings {op : BinaryOp} (hop : op.onlyFlags = false) :
    s.Brings address (s.Undergoes ⟨2, [op.value .w64 (s.cell 0) (s.cell 1)], none⟩)
      (symmetricCode op) := by
  refine brings_undergoes (Nat.le_add_left 1 2) ?_
  simp [symmetricCode, exec_binary hop]

theorem orderedCode_brings {op : BinaryOp} (hop : op.onlyFlags = false) :
    s.Brings address (s.Undergoes ⟨2, [op.value .w64 (s.cell 1) (s.cell 0)], none⟩)
      (orderedCode op) := by
  refine brings_undergoes (Nat.le_add_left 1 2) ?_
  simp [orderedCode, exec_binary hop]

theorem shiftCode_brings {op : BinaryOp} (hop : op.onlyFlags = false) :
    s.Brings address
      (s.Undergoes ⟨2, [op.value .w64 (s.cell 1) (Width.low .w8 (s.cell 0))], none⟩)
      (shiftCode op) := by
  refine brings_undergoes (Nat.le_add_left 1 2) ?_
  simp [shiftCode, exec_binary hop]

theorem unaryCode_brings {op : UnaryOp} {v : BitVec 64} (hop : op.value? (s.cell 0) = some v) :
    s.Brings address (s.Undergoes ⟨1, [v], none⟩) (unaryCode op) := by
  refine brings_undergoes (Nat.le_add_left 1 2) fun _ => ⟨s.pop .rax, rfl, fun spare => ?_⟩
  have hrax : (s.pop .rax).registers .rax = s.cell 0 := by simp
  rw [← hrax] at hop
  obtain ⟨f, hexec⟩ : ∃ f, (unary op rax.whole).exec address spare (s.pop .rax) =
      some (((s.pop .rax).flagged f).setRegister .rax .w64 v) := exec_unary hop
  refine ⟨_, hexec, ?_⟩
  simp

theorem comparisonCode_brings (c : Comparison) :
    s.Brings address (s.Undergoes ⟨2, [truthWord (c.outcome (s.cell 1) (s.cell 0))], none⟩)
      (comparisonCode c) := by
  refine brings_undergoes (Nat.le_add_left 1 2) ?_
  simp [comparisonCode, holds_cmp, registers_setRegister, truthWord]

/-- The operands are compared the other way round, which does not matter here. -/
theorem equalityCode_brings (different same : Int) :
    s.Brings address (s.Undergoes ⟨2, [if Comparison.equal.outcome (s.cell 1) (s.cell 0) then
      BitVec.ofInt 64 same else BitVec.ofInt 64 different], none⟩) (equalityCode different same) := by
  have hcomm : Comparison.equal.outcome (s.cell 1) (s.cell 0) =
      Comparison.equal.outcome (s.cell 0) (s.cell 1) := BEq.comm
  refine brings_undergoes (Nat.le_add_left 1 2) ?_
  simp [equalityCode, holds_cmp, registers_setRegister, hcomm]

/-- Dividing does not stop, unless by zero: the quotient of a word fits into a word. -/
theorem divide_eq_some {spare : Flags} {v : BitVec 64} (hrdx : s.registers .rdx = 0#64)
    (hv : v ≠ 0#64) : s.divide spare v =
      some (((s.setRegister .rax .w64 (s.registers .rax / v)).setRegister .rdx .w64
        (s.registers .rax % v)).flagged spare) := by
  have hdividend : (s.registers .rdx).toNat <<< 64 + (s.registers .rax).toNat =
      (s.registers .rax).toNat := by
    simp [hrdx]
  have hsmall : ¬ (v = 0 ∨ 1 <<< 64 ≤ (s.registers .rax).toNat / v.toNat) := by
    have hlt := (s.registers .rax).isLt
    have hle := Nat.div_le_self (s.registers .rax).toNat v.toNat
    rintro (hzero | hlarge)
    · exact hv hzero
    · omega
  have hquotient : BitVec.ofNat 64 ((s.registers .rax).toNat / v.toNat) = s.registers .rax / v := by
    rw [← BitVec.toNat_udiv, BitVec.ofNat_toNat, BitVec.setWidth_eq]
  have hrest : BitVec.ofNat 64 ((s.registers .rax).toNat % v.toNat) = s.registers .rax % v := by
    rw [← BitVec.toNat_umod, BitVec.ofNat_toNat, BitVec.setWidth_eq]
  rw [Machine.divide]
  simp only [hdividend, if_neg hsmall, hquotient, hrest, flagged]

theorem divisionCode_brings {r : Register} (hr : r = .rax ∨ r = .rdx) (hb : s.cell 0 ≠ 0#64) :
    s.Brings address (s.Undergoes ⟨2, [if r = .rax then s.cell 1 / s.cell 0 else s.cell 1 % s.cell 0],
      none⟩) (divisionCode r) := by
  refine brings_undergoes (Nat.le_add_left 1 2) ?_
  rcases hr with rfl | rfl <;>
    simp [divisionCode, registers_setRegister, divide_eq_some, hb]

theorem mul_brings : s.Brings address (s.Undergoes ⟨2, [s.cell 1 * s.cell 0], none⟩)
    (Operator.code .mul) := by
  refine brings_undergoes (Nat.le_add_left 1 2) ?_
  simp [Operator.code]

theorem divMod_brings (hb : s.cell 0 ≠ 0#64) :
    s.Brings address (s.Undergoes ⟨2, [s.cell 1 / s.cell 0, s.cell 1 % s.cell 0], none⟩)
      (Operator.code .divMod) := by
  refine brings_undergoes (Nat.le_add_left 2 1) ?_
  simp [Operator.code, registers_setRegister, divide_eq_some, hb]

theorem logicalNot_brings : s.Brings address (s.Undergoes ⟨1, [truthWord (s.cell 0 == 0)], none⟩)
    (Operator.code .logicalNot) := by
  refine brings_undergoes (Nat.le_add_left 1 2) ?_
  simp [Operator.code, registers_setRegister, holds_cmp, Comparison.outcome]

theorem load_brings (w : Width) :
    s.Brings address (s.Undergoes ⟨1, [w.low (s.load (s.cell 0))], none⟩)
      (Operator.code (.load w)) := by
  refine brings_undergoes (Nat.le_add_left 1 2) ?_
  simp [Operator.code, registers_setRegister]

theorem store_brings (w : Width) :
    s.Brings address (s.Undergoes ⟨2, [], some (w, s.cell 0, s.cell 1)⟩)
      (Operator.code (.store w)) := by
  refine brings_undergoes (Nat.zero_le 3) ?_
  simp [Operator.code, store_low]

theorem constant_brings (value : Immediate) :
    s.Brings address (s.Undergoes ⟨0, [value.word], none⟩)
      [mov rax.whole (.immediate value), push rax.whole] := by
  refine brings_undergoes (Nat.le_add_left 1 2) ?_
  simp

/-- **Words taken into registers**, one after the other. -/
theorem pops_brings {rs : List Register} (hnodup : rs.Nodup) (hrsp : .rsp ∉ rs) :
    s.Brings address (fun t => t.bare = s.bare.drops rs.length ∧
      (∀ i r, rs[i]? = some r → t.registers r = s.cell i) ∧
      ∀ r ∉ rs, r ≠ .rsp → t.registers r = s.registers r) (rs.map pop) := by
  induction rs generalizing s with
  | nil => exact ⟨rfl, by simp, fun _ _ _ => rfl⟩
  | cons first rs ih =>
    rw [List.mem_cons, not_or] at hrsp
    rw [List.nodup_cons] at hnodup
    have hfirst : first ≠ .rsp := Ne.symm hrsp.1
    refine fun _ => ⟨s.pop first, rfl, (ih (s := s.pop first) hnodup.2 hrsp.2).mono ?_⟩
    rintro t ⟨hbare, hvalues, hkept⟩
    refine ⟨?_, fun i r hr => ?_, fun r hr hne => ?_⟩
    · rw [hbare, bare_pop hfirst, drops_dropTop, List.length_cons]
    · cases i with
      | zero =>
        obtain rfl : first = r := Option.some.inj hr
        rw [hkept first hnodup.1 hfirst, registers_pop hfirst, if_pos rfl]
      | succ i => rw [hvalues i r hr, cell_pop hfirst]
    · rw [List.mem_cons, not_or] at hr
      rw [hkept r hr.2 hne, registers_pop hne, if_neg hr.1]

/-- Shifting by a byte is shifting by the remainder of the word. -/
theorem shiftCount_low (v : BitVec 64) : shiftCount .w64 (Width.low .w8 v) = v.toNat % 64 := by
  have hlow : (Width.low .w8 v).toNat = v.toNat % 256 := by
    simp [Width.low, Width.bits]
    omega
  change (Width.low .w8 v).toNat % 64 = _
  omega

/-- **The instructions of an operator have its effect**, unless they divide by zero. System calls are
left to the program. -/
theorem Operator.brings (op : Operator) (hsyscall : op.isSyscall = false)
    (hdivision : op.isDivision = true → s.cell 0 ≠ 0) :
    s.Brings address (s.Undergoes (op.effect s)) op.code := by
  cases op with
  | add => exact orderedCode_brings rfl
  | sub => exact orderedCode_brings rfl
  | mul => exact mul_brings
  | div => exact divisionCode_brings (.inl rfl) (hdivision rfl)
  | mod => exact divisionCode_brings (.inr rfl) (hdivision rfl)
  | divMod => exact divMod_brings (hdivision rfl)
  | inc => exact unaryCode_brings rfl
  | dec => exact unaryCode_brings rfl
  | logicalNot => exact logicalNot_brings
  | logicalAnd | bitAnd =>
    rw [effect, BitVec.and_comm]
    exact symmetricCode_brings rfl
  | logicalOr | bitOr =>
    rw [effect, BitVec.or_comm]
    exact symmetricCode_brings rfl
  | logicalXor | bitXor =>
    rw [effect, BitVec.xor_comm]
    exact symmetricCode_brings rfl
  | bitNot => exact unaryCode_brings rfl
  | shiftLeft =>
    have hshift := @shiftCode_brings World address s .shl rfl
    simp only [BinaryOp.value, BinaryOp.result, shiftCount_low, Width.low_w64] at hshift
    exact hshift
  | shiftRight =>
    have hshift := @shiftCode_brings World address s .shr rfl
    simp only [BinaryOp.value, BinaryOp.result, shiftCount_low, Width.low_w64] at hshift
    exact hshift
  | equal => exact equalityCode_brings 0 1
  | notEqual =>
    have hword (b : Bool) : truthWord (!b) = if b then BitVec.ofInt 64 0 else BitVec.ofInt 64 1 := by
      cases b <;> rfl
    rw [effect, hword]
    exact equalityCode_brings 1 0
  | greater => exact comparisonCode_brings .greater
  | greaterEqual => exact comparisonCode_brings .greaterEqual
  | less => exact comparisonCode_brings .less
  | lessEqual => exact comparisonCode_brings .lessEqual
  | drop | dup | «over» | rot | swap =>
    refine brings_undergoes (by simp [effect]) ?_
    simp [code, effect]
  | load w => exact load_brings w
  | store w => exact store_brings w
  | syscall arguments => cases hsyscall
  | constant value =>
    cases value with
    | true => exact constant_brings (.decimal 1)
    | false => exact constant_brings (.decimal 0)

/-- A division comes to a division instruction by its top operand. -/
theorem Operator.divides {op : Operator} (hdivision : op.isDivision = true) :
    ∃ front r behind, op.code = front ++ unary .div r.whole :: behind ∧
      s.Brings address (fun t => t.registers r = s.cell 0) front := by
  cases op with
  | div =>
    refine ⟨[pop .rcx, pop .rax, mov rdx.whole (.number 0)], .rcx, _, rfl, ?_⟩
    simp [registers_setRegister]
  | mod =>
    refine ⟨[pop .rcx, pop .rax, mov rdx.whole (.number 0)], .rcx, _, rfl, ?_⟩
    simp [registers_setRegister]
  | divMod =>
    refine ⟨[binary .xor rdx.whole rdx.whole, pop .rbx, pop .rax], .rbx, _, rfl, ?_⟩
    simp
  | _ => cases hdivision

end Families

/-! ## Operators in programs -/

section Programs

variable {World : Type} {P : Platform World} {lines : List Line} {pc : Nat} {s : Machine World}
  {o : List Nat} {op : Operator}

/-- **A program stops at a division by zero.** -/
theorem not_exec_of_divide {r : Register} (h : lines[pc]? = some (code (unary .div r.whole)))
    (hr : s.registers r = 0) (y : Config World) : ¬ Exec P lines ⟨pc, s, o⟩ y := by
  intro hy
  cases hy with
  | plain h' hexec =>
    rw [h] at h'
    cases h'
    rw [exec_div, hr, divide, if_pos (.inl rfl)] at hexec
    cases hexec
  | _ => simp_all

theorem comes_of_operator (h : Sits lines pc (op.code.map code)) (hsyscall : op.isSyscall = false)
    (hdivision : op.isDivision = true → s.cell 0 ≠ 0) :
    Comes P lines (fun y => y.line = pc + op.code.length ∧ y.opened = o ∧ op.Does P s y.machine)
      ⟨pc, s, o⟩ := by
  have hdoes (t : Machine World) (ht : s.Undergoes (op.effect s) t) : op.Does P s t := by
    cases op with
    | syscall arguments => cases hsyscall
    | _ => exact ht
  exact comes_of_brings h ((op.brings hsyscall hdivision).mono hdoes)

/-- Registers that a system call needs: the number of the call and its arguments. -/
def callRegisters (arguments : Fin 6) : List Register :=
  rax :: argumentRegisters.take (syscallArity arguments)

/-- The operands of a system call go to their registers. -/
theorem asks_brings (arguments : Fin 6) :
    s.Brings P.address (s.Asks arguments) ((callRegisters arguments).map Instruction.pop) := by
  have hregisters : ∀ arguments, (callRegisters arguments).Nodup ∧ .rsp ∉ callRegisters arguments ∧
      (callRegisters arguments).length = syscallArity arguments + 1 := by decide
  obtain ⟨hnodup, hrsp, hlength⟩ := hregisters arguments
  refine (pops_brings hnodup hrsp).mono fun t ht => ?_
  obtain ⟨hbare, hvalues, -⟩ := ht
  refine ⟨hvalues 0 .rax rfl, fun i r hr => hvalues (i + 1) r hr, undergoes_of_bare ?_ ?_⟩
  · simp [Operator.effect]
  · rw [hbare, hlength]
    rfl

/-- **A system call** asks the system, and leaves what the system leaves. -/
theorem comes_of_syscall {arguments : Fin 6}
    (hkernel : ∀ called, ∃ returned, P.kernel called returned)
    (h : Sits lines pc ((Operator.code (.syscall arguments)).map code)) :
    Comes P lines (fun y => y.line = pc + (Operator.code (.syscall arguments)).length ∧
      y.opened = o ∧ (Operator.syscall arguments).Does P s y.machine) ⟨pc, s, o⟩ := by
  have hcode : Operator.code (.syscall arguments) =
      (callRegisters arguments).map Instruction.pop ++ [syscall, push rax.whole] := rfl
  rw [hcode, List.map_append, sits_append] at h
  obtain ⟨hpops, hcall, hpush⟩ := h
  rw [List.length_map] at hcall hpush
  refine (comes_of_brings hpops (asks_brings arguments)).trans ?_
  rintro ⟨_, called, _⟩ ⟨hpc, ho, hasks⟩
  dsimp only at hpc ho hasks
  subst hpc ho
  obtain ⟨answered, hanswered⟩ := hkernel called
  refine .step ⟨_, .syscall hcall hanswered⟩ fun y hy => ?_
  -- What the system leaves in `rax` is pushed.
  cases hy with
  | @syscall _ _ returned _ _ hreturned =>
    have hpushed : returned.Brings P.address
        (returned.Undergoes ⟨0, [returned.registers .rax], none⟩) [push rax.whole] :=
      brings_undergoes (Nat.le_add_left 1 2) (by simp)
    have hresult := hpushed.mono fun t ht =>
      (⟨called, returned, hasks, hreturned, ht⟩ : (Operator.syscall arguments).Does P s t)
    refine (comes_of_brings hpush hresult).mono ?_
    rintro y ⟨hline, hopened, hdoes⟩
    refine ⟨?_, hopened, hdoes⟩
    rw [hline, hcode, List.length_append]
    rfl
  | plain h' hexec =>
    rw [hcall] at h'
    cases h'
    cases hexec
  | _ => simp_all

/-- The lines of an operator. -/
theorem lines_lowerExpression {token : Token} (hkind : token.kind = .operator op) :
    (lowerExpression token {}).lines =
      .remark (.token token.kind.name token.index) :: op.code.map code := by
  have hfaithful : token.Faithful := by
    rw [Token.Faithful, hkind]
    trivial
  have hexpression : token.kind.isExpression = true := by
    rw [hkind]
    rfl
  have hlines : expressionLines token = op.code.map code := by
    rw [expressionLines, hkind]
  rw [← hlines]
  exact congrArg Emitted.lines (lowerExpression_gives hexpression hfaithful "")

/-- Every run of the code of an operator comes to its end with the effect of the operator. -/
theorem comes_of_lowerExpression {token : Token} (hkind : token.kind = .operator op)
    (h : Sits lines pc (lowerExpression token {}).lines)
    (hdivision : op.isDivision = true → s.cell 0 ≠ 0)
    (hkernel : op.isSyscall = true → ∀ called, ∃ returned, P.kernel called returned) :
    Comes P lines (fun y => y.line = pc + (lowerExpression token {}).lines.length ∧ y.opened = o ∧
      op.Does P s y.machine) ⟨pc, s, o⟩ := by
  rw [lines_lowerExpression hkind] at h ⊢
  obtain ⟨hremark, hcode⟩ := h
  rw [List.length_cons, List.length_map, Nat.add_comm op.code.length, ← Nat.add_assoc]
  refine .of_sure (.remark hremark) ?_
  cases hsyscall : op.isSyscall with
  | false => exact comes_of_operator hcode hsyscall hdivision
  | true =>
    cases op with
    | syscall arguments => exact comes_of_syscall (hkernel rfl) hcode
    | _ => cases hsyscall

/-- Every run of a division by zero comes to its end there. -/
theorem comes_of_division_by_zero {token : Token} (hkind : token.kind = .operator op)
    (h : Sits lines pc (lowerExpression token {}).lines) (hdivision : op.isDivision = true)
    (hzero : s.cell 0 = 0) : Comes P lines (fun y => ∀ z, ¬ Exec P lines y z) ⟨pc, s, o⟩ := by
  rw [lines_lowerExpression hkind] at h
  obtain ⟨hremark, hcode⟩ := h
  obtain ⟨front, r, rest, hsplit, hfront⟩ := @Operator.divides World P.address s op hdivision
  rw [hsplit, List.map_append, sits_append] at hcode
  refine .of_sure (.remark hremark) ((comes_of_brings hcode.1 hfront).mono ?_)
  rintro ⟨_, t, o'⟩ ⟨hline, -, ht⟩ z
  dsimp only at hline ht
  subst hline
  refine not_exec_of_divide ?_ (ht.trans hzero) z
  have hdivide := hcode.2.1
  rwa [List.length_map] at hdivide

/-- **Operators do what they are for**, wherever their code stands in a program and whatever the
machine and its flags are. Every run of the code comes to its end with the effect of the operator. Only
a division by zero stops it. -/
theorem operator_comes {token : Token} (hkind : token.kind = .operator op) (P : Platform World)
    (before behind : List Line) (s : Machine World) (o : List Nat) :
    let own := (lowerExpression token {}).lines
    let lines := before ++ (own ++ behind)
    ((op.isDivision = true → s.cell 0 ≠ 0) →
      (op.isSyscall = true → ∀ called, ∃ returned, P.kernel called returned) →
      Comes P lines (fun y => y.line = before.length + own.length ∧ y.opened = o ∧
        op.Does P s y.machine) ⟨before.length, s, o⟩) ∧
    (op.isDivision = true → s.cell 0 = 0 →
      Comes P lines (fun y => ∀ z, ¬ Exec P lines y z) ⟨before.length, s, o⟩) := by
  intro own lines
  have hsits : Sits lines before.length own := sits_of_append before own behind
  exact ⟨comes_of_lowerExpression hkind hsits, comes_of_division_by_zero hkind hsits⟩

end Programs

/-- Dividing 17 by 5, and a word by the zero above it. -/
theorem operator_comes_divMod :
    let token : Token := ⟨.operator .divMod, .start, 0, .none, "divmod"⟩
    let lines := (lowerExpression token {}).lines
    let s := plainMachine.pushes [17, 5]
    token.kind = .operator .divMod ∧
      Comes plainPlatform lines (fun y => y.line = 7 ∧ y.opened = [] ∧
        s.Undergoes ⟨2, [3, 2], none⟩ y.machine) ⟨0, s, []⟩ ∧
      Comes plainPlatform lines (fun y => ∀ z, ¬ Exec plainPlatform lines y z)
        ⟨0, plainMachine, []⟩ := by
  intro token lines s
  have hb : s.cell 0 = 5 := cell_push_zero
  have ha : s.cell 1 = 17 := (cell_push_succ (by decide)).trans cell_push_zero
  have hzero : plainMachine.cell 0 = 0 := by decide
  have hlines : [] ++ (lines ++ []) = lines := List.append_nil lines
  have hkind : token.kind = .operator .divMod := rfl
  have hruns (t : Machine Unit) := operator_comes hkind plainPlatform [] [] t []
  refine ⟨hkind, ?_, ?_⟩
  · have hrun := (hruns s).1 (fun _ => by rw [hb]; decide) fun h => by cases h
    rw [hlines] at hrun
    refine hrun.mono fun y hy => ⟨hy.1, hy.2.1, ?_⟩
    have hdoes := hy.2.2
    simp only [Operator.Does, Operator.effect, ha, hb] at hdoes
    exact hdoes
  · have hrun := (hruns plainMachine).2 rfl hzero
    rwa [hlines] at hrun

end StackCompiler
