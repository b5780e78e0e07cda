import StackCompiler.Assembly.Instruction

/-!
# Code of operators

Every operator takes its operands from the hardware stack and leaves its results there.

* `Operator.code`: the instructions of an operator.
-/

namespace StackCompiler

open Instruction Register

/-- Takes two operands, combines the first popped with the second, and leaves the result. -/
def symmetricCode (op : BinaryOp) : List Instruction :=
  [pop rax, pop rbx, binary op rax.whole rbx.whole, push rax.whole]

/-- Takes two operands, combines the deeper with the top, and leaves the result. -/
def orderedCode (op : BinaryOp) : List Instruction :=
  [pop rbx, pop rax, binary op rax.whole rbx.whole, push rax.whole]

/-- Takes an operand and a number of places, and shifts. -/
def shiftCode (op : BinaryOp) : List Instruction :=
  [pop rcx, pop rbx, binary op rbx.whole (.register rcx .w8), push rbx.whole]

/-- Takes an operand and leaves the result in its place. -/
def unaryCode (op : UnaryOp) : List Instruction :=
  [pop rax, unary op rax.whole, push rax.whole]

/-- Takes dividend and divisor, and leaves what `result` holds after the division. -/
def divisionCode (result : Register) : List Instruction :=
  [pop rcx, pop rax, mov rdx.whole (.number 0), unary .div rcx.whole, push result.whole]

/-- Takes two operands and leaves whether they are equal, given what to leave in either case. -/
def equalityCode (different same : Int) : List Instruction :=
  [mov rcx.whole (.number different), mov rdx.whole (.number same), pop rax, pop rbx,
   binary .cmp rax.whole rbx.whole, moveIf .equal rcx.whole rdx.whole, push rcx.whole]

/-- Takes two operands and leaves one if the comparison of the deeper with the top holds. -/
def comparisonCode (condition : Comparison) : List Instruction :=
  [mov rcx.whole (.number 0), mov rdx.whole (.number 1), pop rbx, pop rax,
   binary .cmp rax.whole rbx.whole, moveIf condition rcx.whole rdx.whole, push rcx.whole]

/-- Registers for the arguments of a system call, in order. -/
def argumentRegisters : List Register := [rdi, rsi, rdx, r10, r8, r9]

/-- Takes the number of a system call and its arguments, and leaves the result. -/
def syscallCode (arity : Nat) : List Instruction :=
  pop rax :: ((argumentRegisters.take arity).map pop ++ [syscall, push rax.whole])

/-- **The instructions of an operator.** -/
def Operator.code : Operator → List Instruction
  | .logicalNot =>
    [pop rax, binary .xor (.register rcx .w32) (.register rcx .w32),
     binary .cmp rax.whole (.number 0), setIf .equal (.register rcx .w8), push rcx.whole]
  | .logicalAnd | .bitAnd => symmetricCode .and
  | .logicalOr | .bitOr => symmetricCode .or
  | .logicalXor | .bitXor => symmetricCode .xor
  | .bitNot => unaryCode .not
  | .shiftLeft => shiftCode .shl
  | .shiftRight => shiftCode .shr
  | .add => orderedCode .add
  | .sub => orderedCode .sub
  | .inc => unaryCode .inc
  | .dec => unaryCode .dec
  | .mul => [pop rbx, pop rax, unary .mul rbx.whole, push rax.whole]
  | .div => divisionCode rax
  | .mod => divisionCode rdx
  | .divMod =>
    [binary .xor rdx.whole rdx.whole, pop rbx, pop rax, unary .div rbx.whole, push rax.whole,
     push rdx.whole]
  | .equal => equalityCode 0 1
  | .notEqual => equalityCode 1 0
  | .greater => comparisonCode .greater
  | .greaterEqual => comparisonCode .greaterEqual
  | .less => comparisonCode .less
  | .lessEqual => comparisonCode .lessEqual
  | .drop => [pop rax]
  | .dup => [pop rax, push rax.whole, push rax.whole]
  | .over => [pop rax, pop rbx, push rbx.whole, push rax.whole, push rbx.whole]
  | .rot => [pop rax, pop rbx, pop rcx, push rbx.whole, push rax.whole, push rcx.whole]
  | .swap => [pop rax, pop rbx, push rax.whole, push rbx.whole]
  | .load width =>
    [pop rax, binary .xor rbx.whole rbx.whole, mov (.register rbx width) (.pointee rax),
     push rbx.whole]
  | .store width => [pop rax, pop rbx, mov (.pointee rax) (.register rbx width)]
  | .syscall arguments => syscallCode (syscallArity arguments)
  | .constant value => [mov rax.whole (.number (if value then 1 else 0)), push rax.whole]

end StackCompiler
