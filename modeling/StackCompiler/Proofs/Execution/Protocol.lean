import StackCompiler.Proofs.Execution.CodeShape

/-!
# Switching stacks

A call leaves the data stack in `rax` while the hardware works on the return stack. Two pairs of
lines do this: one goes over to the return stack, at a call and at the end of a function, the other
one goes back, at the beginning of a function and behind a call.

* `Passage`: steps without a choice that leave the data stack alone.
* `Platform.toReturnStack`, `Platform.toDataStack`: the two pairs of lines.
* `Crossing`: such a step at one of these lines.
* **`crossings_call`**, **`crossing_ret`**: calls and returns.
* `crossings_start`: the beginning of the program.
-/

namespace StackCompiler

open Instruction Register Relation

/-! ## Words of the return stack -/

namespace Platform.Reserves

variable {World : Type} {P : Platform World} {s : Machine World} {v : BitVec 64} {i j : Nat}
  (h : P.Reserves)
include h

theorem load_store_mark (hi : i < 512) (hj : j < 512) (hne : i ≠ j) :
    (s.store .w64 (P.mark (i + 1)) v).load (P.mark (j + 1)) = s.load (P.mark (j + 1)) := by
  have hmark := h.toNat_mark hi
  have hmark' := h.toNat_mark hj
  have hbounds := h.bounds
  apply Machine.load_store_of_apart
  · rw [BitVec.toNat_sub, hmark, hmark']
    omega
  · rw [BitVec.toNat_sub, hmark, hmark']
    omega

theorem apart_top (hj : j < 512) : 8 ≤ (P.address .returnTop - P.mark (j + 1)).toNat ∧
    8 ≤ (P.mark (j + 1) - P.address .returnTop).toNat := by
  have hmark := h.toNat_mark hj
  have hbounds := h.bounds
  rw [BitVec.toNat_sub, BitVec.toNat_sub, hmark]
  omega

theorem load_store_top (hj : j < 512) :
    (s.store .w64 (P.address .returnTop) v).load (P.mark (j + 1)) = s.load (P.mark (j + 1)) :=
  Machine.load_store_of_apart (h.apart_top hj).1 (h.apart_top hj).2

theorem elsewhere_store_top : P.SameElsewhere s (s.store .w64 (P.address .returnTop) v) := by
  intro a ha
  apply Machine.memory_store_of_le
  by_contra hlt
  exact ha (.inr (h.inSlot_of_sub (Nat.lt_of_not_le hlt)))

theorem elsewhere_store_mark (hj : j < 512) :
    P.SameElsewhere s (s.store .w64 (P.mark (j + 1)) v) := by
  intro a ha
  apply Machine.memory_store_of_le
  by_contra hlt
  exact ha (.inl (h.inBuffer_of_mark hj (Nat.lt_of_not_le hlt)))

end Platform.Reserves

/-! ## Passage steps -/

section Steps

variable {World : Type} {P : Platform World} {lines : List Line} {pc n : Nat} {s : Machine World}
  {o : List Nat} {r r' : Register} {l : Label}

/-- **A step without a choice that leaves the data stack alone.** -/
structure Passage (P : Platform World) (lines : List Line) (x y : Config World) : Prop where
  sure : Sure P lines x y
  elsewhere : P.SameElsewhere x.machine y.machine

namespace Passage

theorem label (h : lines[pc]? = some (.label l)) : Passage P lines ⟨pc, s, o⟩ ⟨pc + 1, s, o⟩ :=
  ⟨.label h, fun _ _ => rfl⟩

theorem remark {x : Remark} (h : lines[pc]? = some (.remark x)) :
    Passage P lines ⟨pc, s, o⟩ ⟨pc + 1, s, o⟩ :=
  ⟨.remark h, fun _ _ => rfl⟩

theorem mov_register (h : lines[pc]? = some (code (mov r.whole r'.whole))) :
    Passage P lines ⟨pc, s, o⟩ ⟨pc + 1, s.setRegister r .w64 (s.registers r'), o⟩ :=
  ⟨.mov h fun _ => exec_mov_register, fun _ _ => rfl⟩

theorem mov_address (h : lines[pc]? = some (code (mov r.whole (.address l)))) :
    Passage P lines ⟨pc, s, o⟩ ⟨pc + 1, s.setRegister r .w64 (P.address l), o⟩ :=
  ⟨.mov h fun _ => exec_mov_address, fun _ _ => rfl⟩

theorem mov_cell (h : lines[pc]? = some (code (mov r.whole (.cell l)))) :
    Passage P lines ⟨pc, s, o⟩ ⟨pc + 1, s.setRegister r .w64 (s.load (P.address l)), o⟩ :=
  ⟨.mov h fun _ => exec_mov_cell, fun _ _ => rfl⟩

theorem mov_to_top (hP : P.Reserves) (h : lines[pc]? = some (code (mov (.cell .returnTop) r.whole))) :
    Passage P lines ⟨pc, s, o⟩ ⟨pc + 1, s.store .w64 (P.address .returnTop) (s.registers r), o⟩ :=
  ⟨.mov h fun _ => exec_mov_to_cell, hP.elsewhere_store_top⟩

theorem call {target : Nat} (hP : P.Reserves) (honce : SymbolsOnce lines)
    (h : lines[pc]? = some (code (.call l))) (htarget : lines[target]? = some (.label l))
    (hn : n < 512) (hrsp : s.registers .rsp = P.mark n) :
    Passage P lines ⟨pc, s, o⟩ ⟨target, s.push (P.place (pc + 1)), (pc + 1) :: o⟩ := by
  refine ⟨.call honce h htarget, ?_⟩
  rw [Machine.push, hrsp, hP.mark_sub hn]
  exact hP.elsewhere_store_mark hn

theorem ret {c : Nat} {i : Instruction} (hP : P.Fits lines) (h : lines[pc]? = some (code .ret))
    (hcall : lines[c]? = some (code (.call l))) (hbehind : lines[c + 1]? = some (code i))
    (hplace : s.top = P.place (c + 1)) :
    Passage P lines ⟨pc, s, o⟩ ⟨c + 1, s.dropTop, o.tail⟩ :=
  ⟨.ret hP h hcall hbehind hplace, fun _ _ => rfl⟩

end Passage

end Steps

/-! ## The two pairs of lines -/

section Switches

variable {World : Type}

/-- The data stack goes to `rax`, the return stack to `rsp`. -/
def Platform.toReturnStack (P : Platform World) (s : Machine World) : Machine World :=
  (s.setRegister .rax .w64 (s.registers .rsp)).setRegister .rsp .w64 (s.load (P.address .returnTop))

/-- The return stack goes to its cell, the data stack to `rsp`. -/
def Platform.toDataStack (P : Platform World) (s : Machine World) : Machine World :=
  (s.store .w64 (P.address .returnTop) (s.registers .rsp)).setRegister .rsp .w64 (s.registers .rax)

variable {P : Platform World} {s : Machine World}

@[simp] theorem registers_toReturnStack_rsp :
    (P.toReturnStack s).registers .rsp = s.load (P.address .returnTop) := by
  simp [Platform.toReturnStack]

@[simp] theorem registers_toReturnStack_rax :
    (P.toReturnStack s).registers .rax = s.registers .rsp := by
  rw [Platform.toReturnStack, Machine.registers_setRegister_of_ne (by decide)]
  simp

@[simp] theorem load_toReturnStack (a : BitVec 64) : (P.toReturnStack s).load a = s.load a := rfl

@[simp] theorem registers_toDataStack_rsp :
    (P.toDataStack s).registers .rsp = s.registers .rax := by
  simp [Platform.toDataStack]

@[simp] theorem load_toDataStack_top :
    (P.toDataStack s).load (P.address .returnTop) = s.registers .rsp :=
  Machine.load_store

theorem load_toDataStack_mark (h : P.Reserves) {j : Nat} (hj : j < 512) :
    (P.toDataStack s).load (P.mark (j + 1)) = s.load (P.mark (j + 1)) :=
  h.load_store_top hj

/-- **A call was made** that returns to the given line. -/
def Platform.entered (P : Platform World) (s : Machine World) (r : Nat) : Machine World :=
  P.toDataStack ((P.toReturnStack s).push (P.place r))

/-- **A call is over.** -/
def Platform.left (P : Platform World) (s : Machine World) : Machine World :=
  P.toDataStack (P.toReturnStack s).dropTop

end Switches

/-! ## Calls and returns -/

section Calls

variable {World : Type} {P : Platform World} {s : Machine World} {n r : Nat}

@[simp] theorem registers_entered_rsp : (P.entered s r).registers .rsp = s.registers .rsp := by
  rw [Platform.entered, registers_toDataStack_rsp, Machine.push, Machine.registers_store,
    Machine.registers_setRegister_of_ne (by decide), registers_toReturnStack_rax]

@[simp] theorem registers_left_rsp : (P.left s).registers .rsp = s.registers .rsp := by
  rw [Platform.left, registers_toDataStack_rsp, Machine.dropTop,
    Machine.registers_setRegister_of_ne (by decide), registers_toReturnStack_rax]

section Entered

variable (hP : P.Reserves) (hn : n < 512) (hslot : s.load (P.address .returnTop) = P.mark n)
include hP hn hslot

theorem push_toReturnStack (v : BitVec 64) : (P.toReturnStack s).push v =
    ((P.toReturnStack s).setRegister .rsp .w64 (P.mark (n + 1))).store .w64 (P.mark (n + 1)) v := by
  rw [Machine.push, registers_toReturnStack_rsp, hslot, hP.mark_sub hn]

theorem load_entered_top : (P.entered s r).load (P.address .returnTop) = P.mark (n + 1) := by
  rw [Platform.entered, load_toDataStack_top, push_toReturnStack hP hn hslot]
  simp

/-- A call leaves its return address behind. -/
theorem load_entered_mark : (P.entered s r).load (P.mark (n + 1)) = P.place r := by
  rw [Platform.entered, load_toDataStack_mark hP hn, push_toReturnStack hP hn hslot,
    Machine.load_store]

/-- A call keeps the other return addresses. -/
theorem load_entered_of_lt {j : Nat} (hj : j < n) :
    (P.entered s r).load (P.mark (j + 1)) = s.load (P.mark (j + 1)) := by
  have hj' : j < 512 := Nat.lt_trans hj hn
  rw [Platform.entered, load_toDataStack_mark hP hj', push_toReturnStack hP hn hslot,
    hP.load_store_mark hn hj' (Nat.ne_of_gt hj)]
  rfl

end Entered

theorem load_left_top (hP : P.Reserves) (hn : n < 512)
    (hslot : s.load (P.address .returnTop) = P.mark (n + 1)) :
    (P.left s).load (P.address .returnTop) = P.mark n := by
  rw [Platform.left, load_toDataStack_top, Machine.dropTop, Machine.registers_setRegister_self,
    Width.setPart_w64, registers_toReturnStack_rsp, hslot, hP.mark_add hn]

theorem load_left_mark (hP : P.Reserves) {j : Nat} (hj : j < 512) :
    (P.left s).load (P.mark (j + 1)) = s.load (P.mark (j + 1)) :=
  load_toDataStack_mark hP hj

end Calls

/-! ## Crossings -/

/-- Is it a line at which the stacks are being switched? -/
def Line.isSwitch : Line → Bool
  | .label l => !l.isControl
  | .instruction (.mov target source) =>
    target == rsp.whole || target == .cell .returnTop || source == .cell .returnTop ||
      source == .address .returnEnd
  | .instruction (.call _) | .instruction .ret => true
  | _ => false

/-- The stacks are being switched at the place. -/
def OnSwitch (lines : List Line) (pc : Nat) : Prop :=
  ∃ line, lines[pc]? = some line ∧ line.isSwitch = true

theorem isSwitch_label (d : Definition) : (Line.label d.label).isSwitch = true := by
  rw [Line.isSwitch, d.isControl_label, Bool.not_false]

def backLines : List Line :=
  [code (mov (.cell .returnTop) rsp.whole), code (mov rsp.whole rax.whole)]

section Crossings

variable {World : Type} {P : Platform World} {lines : List Line} {d : Definition}
  {start pc n : Nat} {s : Machine World} {o : List Nat}

/-- A step on the way from one stack to the other. -/
def Crossing (P : Platform World) (lines : List Line) (x y : Config World) : Prop :=
  OnSwitch lines x.line ∧ Passage P lines x y

theorem crossing_toReturnStack (h : lines[pc]? = some (code (mov rsp.whole (.cell .returnTop)))) :
    Crossing P lines ⟨pc, s.setRegister .rax .w64 (s.registers .rsp), o⟩
      ⟨pc + 1, P.toReturnStack s, o⟩ :=
  ⟨⟨_, h, rfl⟩, .mov_cell h⟩

theorem crossings_toDataStack (hP : P.Reserves) (h : Sits lines pc backLines) :
    ReflTransGen (Crossing P lines) ⟨pc, s, o⟩ ⟨pc + 2, P.toDataStack s, o⟩ := by
  obtain ⟨hsave, hadopt, -⟩ := h
  refine .head ⟨⟨_, hsave, rfl⟩, .mov_to_top hP hsave⟩ (.single ⟨⟨_, hadopt, rfl⟩, ?_⟩)
  exact .mov_register hadopt

/-- **From a call to the body of the function.** -/
theorem crossings_call (hP : P.Reserves) (honce : SymbolsOnce lines)
    (hat : Sits lines start (prologue d false))
    (hcall : lines[pc]? = some (code (.call d.label))) (hn : n < 512)
    (hslot : s.load (P.address .returnTop) = P.mark n) :
    ReflTransGen (Crossing P lines) ⟨pc, P.toReturnStack s, o⟩
      ⟨start + 4, P.entered s (pc + 1), (pc + 1) :: o⟩ := by
  obtain ⟨-, hlabel, hback⟩ := hat
  refine .head ⟨⟨_, hcall, rfl⟩, .call hP honce hcall hlabel hn (by simpa using hslot)⟩ ?_
  refine .head ⟨⟨_, hlabel, isSwitch_label d⟩, .label hlabel⟩ ?_
  exact crossings_toDataStack hP hback

/-- **From the end of a function to the code behind the call.** -/
theorem crossing_ret {c : Nat} {l : Label} (hP : P.Fits lines)
    (hret : lines[pc]? = some (code .ret)) (hcall : lines[c]? = some (code (.call l)))
    (hback : Sits lines (c + 1) backLines) (hslot : s.load (P.address .returnTop) = P.mark n)
    (hheld : s.load (P.mark n) = P.place (c + 1)) :
    Crossing P lines ⟨pc, P.toReturnStack s, (c + 1) :: o⟩
      ⟨c + 1, (P.toReturnStack s).dropTop, o⟩ := by
  refine ⟨⟨_, hret, rfl⟩, .ret hP hret hcall hback.1 ?_⟩
  rw [Machine.top, registers_toReturnStack_rsp, hslot, load_toReturnStack, hheld]

def Platform.started (P : Platform World) (s : Machine World) : Machine World :=
  let loaded := s.setRegister .rax .w64 (P.address .returnEnd)
  loaded.store .w64 (P.address .returnTop) (loaded.registers .rax)

theorem load_started_top : (P.started s).load (P.address .returnTop) = P.mark 0 := by
  rw [Platform.started, Machine.load_store, Machine.registers_setRegister_self, Width.setPart_w64,
    Platform.mark, Nat.mul_zero, BitVec.sub_zero]

theorem registers_started_rsp : (P.started s).registers .rsp = s.registers .rsp := by
  rw [Platform.started, Machine.registers_store, Machine.registers_setRegister_of_ne (by decide)]

/-- **From the first line of the program to its body.** -/
theorem crossings_start (hP : P.Reserves) (hat : Sits lines start (prologue d true)) :
    ReflTransGen (Crossing P lines) ⟨start + 1, s, o⟩ ⟨start + 4, P.started s, o⟩ := by
  obtain ⟨-, hlabel, hload, hstore, -⟩ := hat
  refine .head ⟨⟨_, hlabel, isSwitch_label d⟩, .label hlabel⟩ ?_
  refine .head ⟨⟨_, hload, rfl⟩, .mov_address hload⟩ (.single ⟨⟨_, hstore, rfl⟩, ?_⟩)
  exact .mov_to_top hP hstore

end Crossings

end StackCompiler
