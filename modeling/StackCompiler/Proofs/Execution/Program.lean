import Mathlib.Logic.Relation
import StackCompiler.Proofs.Execution.Processor

/-!
# Running programs

A program is run line by line, with everything it needs from around it: where the linker puts its
symbols and its code, what the operating system does, and what lines of the source program do.

* `Platform`, `Platform.Fits`: the surroundings of a program.
* `Config`: the line to run next, the machine, and the calls that are still open.
* **`Exec`**: what running a line does.
* `Sure`: steps without a choice.
* `Platform.Reserved`, `Platform.mark`: the memory of the return stack.
-/

namespace StackCompiler

/-! ## Surroundings -/

/-- **What surrounds a program.** -/
structure Platform (World : Type) where
  /-- The address of a symbol. -/
  address : Label → BitVec 64
  /-- The address of the code of a line. -/
  place : Nat → BitVec 64
  /-- What calls of the operating system do. -/
  kernel : Machine World → Machine World → Prop
  /-- What lines of the source program do. They may go anywhere. -/
  verbatim : String → Nat × Machine World → Nat × Machine World → Prop

def Storage.size : Storage → Nat
  | .words count => 8 * count
  | .bytes count => count
  | .values content => content.length

namespace Line

def isCode : Line → Bool
  | .instruction _ | .verbatim _ => true
  | _ => false

def isInstruction : Line → Bool
  | .instruction _ => true
  | _ => false

/-- **Lines of a function body that do not switch stacks.** -/
def isOrdinary : Line → Bool
  | .remark _ | .label _ | .verbatim _ => true
  | .instruction i => i.isOrdinary
  | _ => false

end Line

/-- **The lines are laid out in memory.** -/
structure Platform.Fits {World : Type} (P : Platform World) (lines : List Line) : Prop where
  /-- Storage on neighbouring lines lies side by side. -/
  storage : ∀ (i : Nat) (l l' : Label) (s s' : Storage), lines[i]? = some (.storage l s) →
    lines[i + 1]? = some (.storage l' s') → (P.address l').toNat = (P.address l).toNat + s.size
  /-- Instructions take up room, so code at the same place as an instruction can only be lines of the
  source program right before it, if these are empty. -/
  apart : ∀ (i j : Nat) (line line' : Line), lines[i]? = some line → line.isInstruction = true →
    lines[j]? = some line' → line'.isCode = true → P.place j = P.place i →
    j ≤ i ∧ ∀ (k : Nat) (line'' : Line), j ≤ k → k < i → lines[k]? = some line'' →
      line''.isInstruction = false

/-! ## Steps -/

/-- **A state of a running program.** Of the calls that are still open, the lines are kept that they
return to. They are there for the sake of proofs only. -/
structure Config (World : Type) where
  /-- The line to run next. -/
  line : Nat
  machine : Machine World
  /-- The lines that open calls return to, the last call first. -/
  opened : List Nat

def Machine.dropTop {World : Type} (s : Machine World) : Machine World :=
  s.setRegister .rsp .w64 (s.registers .rsp + 8)

section Steps

variable {World : Type}

/-- **What running a line does.** A program is over where no code follows. -/
inductive Exec (P : Platform World) (lines : List Line) : Config World → Config World → Prop where
  | label {pc : Nat} {s : Machine World} {o : List Nat} {l : Label}
      (h : lines[pc]? = some (.label l)) : Exec P lines ⟨pc, s, o⟩ ⟨pc + 1, s, o⟩
  | remark {pc : Nat} {s : Machine World} {o : List Nat} {r : Remark}
      (h : lines[pc]? = some (.remark r)) : Exec P lines ⟨pc, s, o⟩ ⟨pc + 1, s, o⟩
  /-- Most instructions go to the next line. -/
  | plain {pc : Nat} {s s' : Machine World} {o : List Nat} {i : Instruction} {spare : Flags}
      (h : lines[pc]? = some (code i)) (hexec : i.exec P.address spare s = some s') :
      Exec P lines ⟨pc, s, o⟩ ⟨pc + 1, s', o⟩
  /-- The operating system comes back to the next line. -/
  | syscall {pc : Nat} {s s' : Machine World} {o : List Nat} (h : lines[pc]? = some (code .syscall))
      (hkernel : P.kernel s s') : Exec P lines ⟨pc, s, o⟩ ⟨pc + 1, s', o⟩
  /-- Lines of the source program do what they do. -/
  | verbatim {pc pc' : Nat} {s s' : Machine World} {o : List Nat} {text : String}
      (h : lines[pc]? = some (.verbatim text)) (hrun : P.verbatim text (pc, s) (pc', s')) :
      Exec P lines ⟨pc, s, o⟩ ⟨pc', s', o⟩
  | jump {pc target : Nat} {s : Machine World} {o : List Nat} {l : Label}
      (h : lines[pc]? = some (code (.jump l))) (htarget : lines[target]? = some (.label l)) :
      Exec P lines ⟨pc, s, o⟩ ⟨target, s, o⟩
  /-- A jump under a condition goes to its label if the condition holds. -/
  | jumpIfZero {pc target : Nat} {s : Machine World} {o : List Nat} {l : Label}
      (h : lines[pc]? = some (code (.jumpIfZero l))) (hzero : s.flags.zero = true)
      (htarget : lines[target]? = some (.label l)) : Exec P lines ⟨pc, s, o⟩ ⟨target, s, o⟩
  | noJump {pc : Nat} {s : Machine World} {o : List Nat} {l : Label}
      (h : lines[pc]? = some (code (.jumpIfZero l))) (hzero : s.flags.zero = false) :
      Exec P lines ⟨pc, s, o⟩ ⟨pc + 1, s, o⟩
  /-- A call pushes the address behind it and goes to its label. -/
  | call {pc target : Nat} {s : Machine World} {o : List Nat} {l : Label}
      (h : lines[pc]? = some (code (.call l))) (htarget : lines[target]? = some (.label l)) :
      Exec P lines ⟨pc, s, o⟩ ⟨target, s.push (P.place (pc + 1)), (pc + 1) :: o⟩
  /-- A return pops an address and goes to the code at this address. -/
  | ret {pc target : Nat} {s : Machine World} {o : List Nat} {line : Line}
      (h : lines[pc]? = some (code .ret)) (htarget : lines[target]? = some line)
      (hcode : line.isCode = true) (hplace : P.place target = s.top) :
      Exec P lines ⟨pc, s, o⟩ ⟨target, s.dropTop, o.tail⟩

/-- From one state the program goes to the other, and nowhere else. -/
def Sure (P : Platform World) (lines : List Line) (x y : Config World) : Prop :=
  Exec P lines x y ∧ ∀ z, Exec P lines x z → z = y

def SymbolsOnce (lines : List Line) : Prop :=
  ∀ (i j : Nat) (l : Label), lines[i]? = some (.label l) → lines[j]? = some (.label l) → i = j

namespace Sure

variable {P : Platform World} {lines : List Line} {pc target : Nat} {s s' : Machine World}
  {o : List Nat}

theorem label {l : Label} (h : lines[pc]? = some (.label l)) :
    Sure P lines ⟨pc, s, o⟩ ⟨pc + 1, s, o⟩ := by
  refine ⟨.label h, fun z hz => ?_⟩
  cases hz <;> simp_all

theorem remark {r : Remark} (h : lines[pc]? = some (.remark r)) :
    Sure P lines ⟨pc, s, o⟩ ⟨pc + 1, s, o⟩ := by
  refine ⟨.remark h, fun z hz => ?_⟩
  cases hz <;> simp_all

theorem mov {t u : Operand} (h : lines[pc]? = some (code (.mov t u)))
    (hexec : ∀ spare, (Instruction.mov t u).exec P.address spare s = some s') :
    Sure P lines ⟨pc, s, o⟩ ⟨pc + 1, s', o⟩ := by
  refine ⟨.plain h (hexec s.flags), fun z hz => ?_⟩
  cases hz with
  | plain h' hexec' =>
    rw [h] at h'
    cases h'
    rw [hexec] at hexec'
    cases hexec'
    rfl
  | _ => simp_all

theorem call {l : Label} (honce : SymbolsOnce lines) (h : lines[pc]? = some (code (.call l)))
    (htarget : lines[target]? = some (.label l)) :
    Sure P lines ⟨pc, s, o⟩ ⟨target, s.push (P.place (pc + 1)), (pc + 1) :: o⟩ := by
  refine ⟨.call h htarget, fun z hz => ?_⟩
  cases hz with
  | @call _ place _ _ l' h' hplace =>
    rw [h] at h'
    cases h'
    rw [honce place target l hplace htarget]
  | plain h' hexec =>
    rw [h] at h'
    cases h'
    cases hexec
  | _ => simp_all

/-- **A return to the line behind a call.** -/
theorem ret (hP : P.Fits lines) (h : lines[pc]? = some (code .ret)) {l : Label} {i : Instruction}
    (hcall : lines[target]? = some (code (.call l))) (hbehind : lines[target + 1]? = some (code i))
    (hplace : s.top = P.place (target + 1)) :
    Sure P lines ⟨pc, s, o⟩ ⟨target + 1, s.dropTop, o.tail⟩ := by
  refine ⟨.ret h hbehind rfl hplace.symm, fun z hz => ?_⟩
  cases hz with
  | @ret _ place _ _ line h' hline hcode hplace' =>
    have hsame : P.place place = P.place (target + 1) := hplace'.trans hplace
    obtain ⟨hle, hbetween⟩ := hP.apart (target + 1) place _ line hbehind rfl hline hcode hsame
    -- The call itself takes up room, so nothing before it has the address behind it.
    by_cases hlt : place ≤ target
    · have := hbetween target _ hlt (Nat.lt_succ_self _) hcall
      cases this
    · rw [show place = target + 1 by omega]
  | plain h' hexec =>
    rw [h] at h'
    cases h'
    cases hexec
  | _ => simp_all

end Sure

end Steps

/-! ## The return stack -/

namespace Platform

variable {World : Type} (P : Platform World)

/-- **The address lies in the return stack.** -/
def InBuffer (a : BitVec 64) : Prop :=
  (P.address .returnStack).toNat ≤ a.toNat ∧ a.toNat < (P.address .returnEnd).toNat

instance (a : BitVec 64) : Decidable (P.InBuffer a) := inferInstanceAs (Decidable (_ ∧ _))

/-- The address lies in the cell that holds the top of the return stack. -/
def InSlot (a : BitVec 64) : Prop :=
  (P.address .returnTop).toNat ≤ a.toNat ∧ a.toNat < (P.address .returnTop).toNat + 8

/-- **The memory that calls and returns need.** -/
def Reserved (a : BitVec 64) : Prop := P.InBuffer a ∨ P.InSlot a

/-- **The top of the return stack** while so many calls are open. -/
def mark (count : Nat) : BitVec 64 := P.address .returnEnd - BitVec.ofNat 64 (8 * count)

/-- The cell of the return stack lies right before it. -/
structure Reserves : Prop where
  stack : (P.address .returnStack).toNat = (P.address .returnTop).toNat + 8
  last : (P.address .returnEnd).toNat = (P.address .returnStack).toNat + returnStackSize

def SameReserved (s s' : Machine World) : Prop := ∀ a, P.Reserved a → s'.memory a = s.memory a

/-- **All memory but the reserved memory is the same.** -/
def SameElsewhere (s s' : Machine World) : Prop := ∀ a, ¬ P.Reserved a → s'.memory a = s.memory a

variable {P}

theorem reserves_of_fits {lines : List Line} (h : P.Fits lines) {i : Nat}
    (htop : lines[i]? = some (.storage .returnTop (.words 1)))
    (hstack : lines[i + 1]? = some (.storage .returnStack (.bytes returnStackSize)))
    (hend : lines[i + 2]? = some (.storage .returnEnd (.values []))) : P.Reserves :=
  ⟨h.storage i _ _ _ _ htop hstack, h.storage (i + 1) _ _ _ _ hstack hend⟩

namespace Reserves

variable (h : P.Reserves)
include h

theorem bounds : (P.address .returnStack).toNat = (P.address .returnTop).toNat + 8 ∧
    (P.address .returnEnd).toNat = (P.address .returnTop).toNat + 4104 ∧
    (P.address .returnTop).toNat + 4104 < 0x10000000000000000 := by
  have hlast := h.last
  have hlt := (P.address .returnEnd).isLt
  rw [h.stack, returnStackSize] at hlast
  exact ⟨h.stack, hlast, by omega⟩

theorem toNat_mark {count : Nat} (hcount : count ≤ 512) :
    (P.mark count).toNat = (P.address .returnEnd).toNat - 8 * count := by
  have hbounds := h.bounds
  rw [mark, BitVec.toNat_sub, BitVec.toNat_ofNat]
  omega

theorem mark_sub {count : Nat} (hcount : count < 512) : P.mark count - 8 = P.mark (count + 1) := by
  have hcount' := h.toNat_mark (Nat.le_of_lt hcount)
  have hsucc := h.toNat_mark hcount
  have hbounds := h.bounds
  apply BitVec.eq_of_toNat_eq
  rw [hsucc, BitVec.toNat_sub, hcount']
  change (2 ^ 64 - 8 + _) % 2 ^ 64 = _
  omega

theorem mark_add {count : Nat} (hcount : count < 512) : P.mark (count + 1) + 8 = P.mark count := by
  have := h.mark_sub hcount
  bv_omega

theorem inBuffer_of_mark {count : Nat} (hcount : count < 512) {a : BitVec 64}
    (ha : (a - P.mark (count + 1)).toNat < 8) : P.InBuffer a := by
  have hmark := h.toNat_mark hcount
  have hbounds := h.bounds
  have halt := a.isLt
  rw [BitVec.toNat_sub, hmark] at ha
  unfold InBuffer
  omega

theorem inSlot_of_sub {a : BitVec 64} (ha : (a - P.address .returnTop).toNat < 8) : P.InSlot a := by
  have hbounds := h.bounds
  have halt := a.isLt
  rw [BitVec.toNat_sub] at ha
  unfold InSlot
  omega

end Reserves

end Platform

end StackCompiler
