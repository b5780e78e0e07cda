import StackCompiler.Assembly.Label
import StackCompiler.Text.Escape

/-!
# Instructions

The instructions of the target machine that compiled programs are made of, and their spelling.

* `Register`, `Operand`: what instructions act on.
* `Instruction`: one instruction.
* `Instruction.text`: its spelling.
-/

namespace StackCompiler

/-- Registers of the target machine. -/
inductive Register where
  | rax | rbx | rcx | rdx | rsi | rdi | rsp | r8 | r9 | r10
  deriving DecidableEq, Repr

/-- **The name of a register, or of the low part of it of some width.** -/
def Register.text : Register → Width → String
  | .rax, .w8 => "al" | .rax, .w16 => "ax" | .rax, .w32 => "eax" | .rax, .w64 => "rax"
  | .rbx, .w8 => "bl" | .rbx, .w16 => "bx" | .rbx, .w32 => "ebx" | .rbx, .w64 => "rbx"
  | .rcx, .w8 => "cl" | .rcx, .w16 => "cx" | .rcx, .w32 => "ecx" | .rcx, .w64 => "rcx"
  | .rdx, .w8 => "dl" | .rdx, .w16 => "dx" | .rdx, .w32 => "edx" | .rdx, .w64 => "rdx"
  | .rsi, .w8 => "sil" | .rsi, .w16 => "si" | .rsi, .w32 => "esi" | .rsi, .w64 => "rsi"
  | .rdi, .w8 => "dil" | .rdi, .w16 => "di" | .rdi, .w32 => "edi" | .rdi, .w64 => "rdi"
  | .rsp, .w8 => "spl" | .rsp, .w16 => "sp" | .rsp, .w32 => "esp" | .rsp, .w64 => "rsp"
  | .r8, .w8 => "r8b" | .r8, .w16 => "r8w" | .r8, .w32 => "r8d" | .r8, .w64 => "r8"
  | .r9, .w8 => "r9b" | .r9, .w16 => "r9w" | .r9, .w32 => "r9d" | .r9, .w64 => "r9"
  | .r10, .w8 => "r10b" | .r10, .w16 => "r10w" | .r10, .w32 => "r10d" | .r10, .w64 => "r10"

/-- A number as written in an instruction. -/
inductive Immediate where
  /-- A decimal integer. -/
  | decimal (value : Int)
  /-- A bit pattern in hexadecimal with at least so many digits. -/
  | pattern (digits bits : Nat)
  deriving DecidableEq, Repr

/-- The number as text. -/
def Immediate.text : Immediate → String
  | .decimal value => toString value
  | .pattern digits bits => "0x" ++ paddedHexText digits bits

/-- **What instructions act on.** -/
inductive Operand where
  /-- A register or the low part of it. -/
  | register (register : Register) (width : Width)
  /-- A number. -/
  | immediate (value : Immediate)
  /-- The address of a label. -/
  | address (label : Label)
  /-- The memory that a register points at. -/
  | pointee (register : Register)
  /-- The memory at a label. -/
  | cell (label : Label)
  deriving DecidableEq, Repr

/-- The operand as text. -/
def Operand.text : Operand → String
  | .register r width => r.text width
  | .immediate value => value.text
  | .address label => label.name
  | .pointee r => "[" ++ r.text .w64 ++ "]"
  | .cell label => "[" ++ label.name ++ "]"

/-- A whole register as an operand. -/
abbrev Register.whole (r : Register) : Operand := .register r .w64

/-- A decimal integer as an operand. -/
abbrev Operand.number (n : Int) : Operand := .immediate (.decimal n)

/-- Operations with a target and a source. -/
inductive BinaryOp where
  | add | sub | and | or | xor | shl | shr | cmp | test
  deriving DecidableEq, Repr

/-- The name of the operation. -/
def BinaryOp.text : BinaryOp → String
  | .add => "add" | .sub => "sub" | .and => "and" | .or => "or" | .xor => "xor"
  | .shl => "shl" | .shr => "shr" | .cmp => "cmp" | .test => "test"

/-- Operations with one operand. -/
inductive UnaryOp where
  | not | inc | dec | mul | div
  deriving DecidableEq, Repr

/-- The name of the operation. -/
def UnaryOp.text : UnaryOp → String
  | .not => "not" | .inc => "inc" | .dec => "dec" | .mul => "mul" | .div => "div"

/-- Conditions on the outcome of a signed comparison. -/
inductive Comparison where
  | equal | greater | greaterEqual | less | lessEqual
  deriving DecidableEq, Repr

/-- The condition as the end of an instruction's name. -/
def Comparison.text : Comparison → String
  | .equal => "e" | .greater => "g" | .greaterEqual => "ge" | .less => "l" | .lessEqual => "le"

/-- **One instruction.** -/
inductive Instruction where
  /-- Pushes onto the hardware stack. -/
  | push (source : Operand)
  /-- Pops from the hardware stack. -/
  | pop (target : Register)
  /-- Copies. -/
  | mov (target source : Operand)
  /-- Combines a target with a source. -/
  | binary (op : BinaryOp) (target source : Operand)
  /-- Acts on one operand. -/
  | unary (op : UnaryOp) (operand : Operand)
  /-- Sets a byte to one or zero. -/
  | setIf (condition : Comparison) (target : Operand)
  /-- Copies if a condition holds. -/
  | moveIf (condition : Comparison) (target source : Operand)
  /-- Goes to a label. -/
  | jump (target : Label)
  /-- Goes to a label if the last result was zero. -/
  | jumpIfZero (target : Label)
  /-- Pushes the address of the next instruction and goes to a label. -/
  | call (target : Label)
  /-- Pops an address and goes there. -/
  | ret
  /-- Calls the operating system. -/
  | syscall
  deriving DecidableEq, Repr

/-- **The spelling of an instruction.** -/
def Instruction.text : Instruction → String
  | .push source => "push " ++ source.text
  | .pop target => "pop " ++ target.text .w64
  | .mov target source => "mov " ++ target.text ++ ", " ++ source.text
  | .binary op target source => op.text ++ " " ++ target.text ++ ", " ++ source.text
  | .unary op operand => op.text ++ " " ++ operand.text
  | .setIf condition target => "set" ++ condition.text ++ " " ++ target.text
  | .moveIf condition target source =>
    "cmov" ++ condition.text ++ " " ++ target.text ++ ", " ++ source.text
  | .jump target => "jmp " ++ target.name
  | .jumpIfZero target => "jz " ++ target.name
  | .call target => "call " ++ target.name
  | .ret => "ret"
  | .syscall => "syscall"

end StackCompiler
