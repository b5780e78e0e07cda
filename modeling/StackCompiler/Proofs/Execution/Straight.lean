import Mathlib.Data.List.Induction
import StackCompiler.Proofs.Execution.Placement
import StackCompiler.Proofs.Execution.Program

/-!
# Code without jumps

What instructions in a row do to a machine, whatever the flags are that they leave undefined. The
hardware stack is looked at through its pointer and the memory alone.

* `Comes`: every run comes to a state with a property.
* `Machine.Brings`: what instructions in a row do.
* **`comes_of_brings`**: a program does what its instructions do.
* `Machine.cell`: the cells of the hardware stack.
* `Machine.outside`: everything but registers and flags, and the pointer of the hardware stack.
-/

namespace StackCompiler

section Runs

variable {World : Type}

/-! ## Runs that cannot be avoided -/

/-- **Every run from a state comes to a state with a property.** -/
inductive Comes (P : Platform World) (lines : List Line) (Q : Config World → Prop) :
    Config World → Prop where
  | here {x : Config World} (h : Q x) : Comes P lines Q x
  /-- The program goes on, and wherever it goes it comes to such a state. -/
  | step {x : Config World} (hgoes : ∃ y, Exec P lines x y)
      (hcomes : ∀ y, Exec P lines x y → Comes P lines Q y) : Comes P lines Q x

namespace Comes

variable {P : Platform World} {lines : List Line} {Q R : Config World → Prop} {x y : Config World}

theorem trans (h : Comes P lines Q x) (hnext : ∀ y, Q y → Comes P lines R y) : Comes P lines R x := by
  induction h with
  | here h => exact hnext _ h
  | step hgoes _ ih => exact .step hgoes ih

theorem mono (h : Comes P lines Q x) (hQ : ∀ y, Q y → R y) : Comes P lines R x :=
  h.trans fun y hy => .here (hQ y hy)

theorem of_sure (h : Sure P lines x y) (hy : Comes P lines Q y) : Comes P lines Q x := by
  refine .step ⟨y, h.1⟩ fun z hz => ?_
  rw [h.2 z hz]
  exact hy

end Comes

/-! ## Instructions in a row -/

/-- **What instructions in a row do**, whatever the flags are that they leave undefined: every one of
them succeeds, and the machine behind the last one has a property. -/
def Machine.Brings (address : Label → BitVec 64) (Q : Machine World → Prop) :
    Machine World → List Instruction → Prop
  | s, [] => Q s
  | s, i :: rest => ∀ spare, ∃ t, i.exec address spare s = some t ∧ t.Brings address Q rest

variable {P : Platform World} {lines : List Line} {Q : Machine World → Prop} {pc : Nat}
  {o : List Nat} {s : Machine World}

@[simp] theorem brings_nil {address : Label → BitVec 64} : s.Brings address Q [] ↔ Q s := Iff.rfl

@[simp] theorem brings_cons {address : Label → BitVec 64} {i : Instruction}
    {rest : List Instruction} : s.Brings address Q (i :: rest) ↔
      ∀ spare, ∃ t, i.exec address spare s = some t ∧ t.Brings address Q rest := Iff.rfl

theorem Machine.Brings.mono {address : Label → BitVec 64} {R : Machine World → Prop}
    {is : List Instruction} (h : s.Brings address Q is) (hQ : ∀ t, Q t → R t) :
    s.Brings address R is := by
  induction is generalizing s with
  | nil => exact hQ s h
  | cons i is ih =>
    intro spare
    obtain ⟨t, ht, hrest⟩ := h spare
    exact ⟨t, ht, ih hrest⟩

/-- **An instruction that goes to the next line** goes nowhere else. -/
theorem eq_of_exec {i : Instruction} {y : Config World} (h : lines[pc]? = some (code i))
    (hi : ∀ spare, i.exec P.address spare s ≠ none) (hy : Exec P lines ⟨pc, s, o⟩ y) :
    ∃ spare t, i.exec P.address spare s = some t ∧ y = ⟨pc + 1, t, o⟩ := by
  have hsame {j : Instruction} (h' : lines[pc]? = some (code j)) : j = i := by
    rw [h] at h'
    cases h'
    rfl
  cases hy with
  | @plain _ _ t _ j spare h' hexec =>
    obtain rfl := hsame h'
    exact ⟨spare, t, hexec, rfl⟩
  | label h' | remark h' | verbatim h' =>
    rw [h] at h'
    cases h'
  | syscall h' | jump h' | jumpIfZero h' | noJump h' | call h' | ret h' =>
    obtain rfl := hsame h'
    exact absurd rfl (hi s.flags)

/-- **A program does what its instructions do.** -/
theorem comes_of_brings {is : List Instruction} (h : Sits lines pc (is.map code))
    (hs : s.Brings P.address Q is) :
    Comes P lines (fun y => y.line = pc + is.length ∧ y.opened = o ∧ Q y.machine) ⟨pc, s, o⟩ := by
  induction is generalizing pc s with
  | nil => exact .here ⟨rfl, rfl, hs⟩
  | cons i is ih =>
    obtain ⟨hline, hrest⟩ := h
    obtain ⟨t, ht, -⟩ := hs s.flags
    refine .step ⟨_, .plain hline ht⟩ fun y hy => ?_
    have hdefined (spare : Flags) : i.exec P.address spare s ≠ none := by
      obtain ⟨t, ht, -⟩ := hs spare
      simp [ht]
    obtain ⟨spare, t, ht, rfl⟩ := eq_of_exec hline hdefined hy
    obtain ⟨t', ht', hbrings⟩ := hs spare
    obtain rfl : t' = t := Option.some.inj (ht'.symm.trans ht)
    have hlength : pc + (i :: is).length = pc + 1 + is.length := by
      rw [List.length_cons]
      omega
    rw [hlength]
    exact ih hrest hbrings

end Runs

/-! ## The hardware stack -/

/-- **What code does to the hardware stack and to memory.** -/
structure StackEffect where
  /-- How many cells it takes from the stack. -/
  taken : Nat
  /-- What it leaves there instead, the deepest cell first. -/
  left : List (BitVec 64)
  /-- What it stores elsewhere: of which width, at which address, and the word. -/
  stored : Option (Width × BitVec 64 × BitVec 64) := none

namespace Machine

variable {World : Type} (s : Machine World)

/-- **A cell of the hardware stack**, counted from its top. -/
def cell (n : Nat) : BitVec 64 := s.load (s.registers .rsp + BitVec.ofNat 64 (8 * n))

/-- Takes a number of cells from the hardware stack. -/
@[simp] def drops (s : Machine World) : Nat → Machine World
  | 0 => s
  | n + 1 => (s.drops n).dropTop

/-- Puts words onto the hardware stack, one after the other. -/
@[simp] def pushes (s : Machine World) : List (BitVec 64) → Machine World
  | [] => s
  | w :: ws => (s.push w).pushes ws

/-- Stores what is to be stored. -/
@[simp] def storeAll (s : Machine World) : Option (Width × BitVec 64 × BitVec 64) → Machine World
  | none => s
  | some (w, a, v) => s.store w a v

/-- **The machine after an effect**, with the registers that it had. -/
def after (e : StackEffect) : Machine World := ((s.drops e.taken).storeAll e.stored).pushes e.left

/-- Sets the flags. -/
def flagged (f : Flags) : Machine World := { s with flags := f }

/-- The machine with its registers and flags forgotten, up to the pointer of the hardware stack. -/
def bare : Machine World :=
  { s with
    registers := fun r => if r = .rsp then s.registers .rsp else 0
    flags := ⟨false, false, false, false, false⟩ }

/-- **What an effect is for the hardware stack and memory.** The pointer moves up by eight for every
cell that is taken and down by eight for every cell that is left. What is left lies on top, and
nothing else in memory changes but what is stored. -/
structure Undergoes (e : StackEffect) (t : Machine World) : Prop where
  pointer : t.registers .rsp =
    s.registers .rsp + BitVec.ofNat 64 (8 * e.taken) - BitVec.ofNat 64 (8 * e.left.length)
  cells : (List.range e.left.length).map t.cell = e.left.reverse
  memory : ∀ a, 8 * e.left.length ≤ (a - t.registers .rsp).toNat →
    t.memory a = (s.storeAll e.stored).memory a
  world : t.world = s.world

section Laws

variable {s : Machine World} {t : Machine World} {r : Register} {w : Width} {a v : BitVec 64}
  {n : Nat} {e : StackEffect}

/-! ### Forgetting registers -/

@[simp] theorem bare_setRegister (hr : r ≠ .rsp) : (s.setRegister r w v).bare = s.bare := by
  simp only [bare, setRegister, if_neg (Ne.symm hr)]

@[simp] theorem bare_flagged (f : Flags) : (s.flagged f).bare = s.bare := rfl

@[simp] theorem bare_pop (hr : r ≠ .rsp) : (s.pop r).bare = s.bare.dropTop := by
  simp only [bare, pop, dropTop, setRegister, if_neg (Ne.symm hr), if_true, Width.setPart_w64]
  congr 1
  funext r'
  by_cases h : r' = .rsp <;> simp [h]

@[simp] theorem bare_store : (s.store w a v).bare = s.bare.store w a v := rfl

@[simp] theorem bare_push : (s.push v).bare = s.bare.push v := by
  simp only [bare, push, store, setRegister, if_true, Width.setPart_w64]
  congr 1
  funext r'
  by_cases h : r' = .rsp <;> simp [h]

theorem bare_storeAll (stored : Option (Width × BitVec 64 × BitVec 64)) :
    (s.storeAll stored).bare = s.bare.storeAll stored := by
  cases stored <;> rfl

theorem bare_dropTop : s.dropTop.bare = s.bare.dropTop := by
  simp only [bare, dropTop, setRegister, if_true, Width.setPart_w64]
  congr 1
  funext r'
  by_cases h : r' = .rsp <;> simp [h]

theorem bare_drops : (s.drops n).bare = s.bare.drops n := by
  induction n with
  | zero => rfl
  | succ n ih => rw [drops, bare_dropTop, ih, drops]

theorem drops_dropTop : s.dropTop.drops n = s.drops (n + 1) := by
  induction n with
  | zero => rfl
  | succ n ih =>
    rw [drops, ih]
    rfl

theorem bare_pushes (ws : List (BitVec 64)) : (s.pushes ws).bare = s.bare.pushes ws := by
  induction ws generalizing s with
  | nil => rfl
  | cons w ws ih => rw [pushes, ih, bare_push, pushes]

theorem bare_after : (s.after e).bare = s.bare.after e := by
  rw [after, bare_pushes, bare_storeAll, bare_drops, after]

/-! ### Cells -/

theorem top_eq_cell : s.top = s.cell 0 := by
  simp [top, cell]

@[simp] theorem cell_pop (hr : r ≠ .rsp) : (s.pop r).cell n = s.cell (n + 1) := by
  have hrsp : (s.pop r).registers .rsp = s.registers .rsp + 8 := by
    simp only [pop, if_neg (Ne.symm hr), if_true]
  have haddress : s.registers .rsp + 8 + BitVec.ofNat 64 (8 * n) =
      s.registers .rsp + BitVec.ofNat 64 (8 * (n + 1)) := by
    rw [Nat.mul_succ, BitVec.ofNat_add, BitVec.add_assoc, BitVec.add_comm (8 : BitVec 64)]
    rfl
  rw [cell, hrsp, haddress]
  rfl

@[simp] theorem cell_setRegister (hr : r ≠ .rsp) : (s.setRegister r w v).cell n = s.cell n := by
  rw [cell, registers_setRegister_of_ne (Ne.symm hr)]
  rfl

@[simp] theorem cell_flagged (f : Flags) : (s.flagged f).cell n = s.cell n := rfl

theorem cell_push_zero : (s.push v).cell 0 = v := by
  have hrsp : (s.push v).registers .rsp = s.registers .rsp - 8 := by simp [push]
  rw [← top_eq_cell, top, hrsp]
  exact load_store

theorem cell_push_succ (hn : 8 * (n + 2) ≤ 0x10000000000000000) :
    (s.push v).cell (n + 1) = s.cell n := by
  have hrsp : (s.push v).registers .rsp = s.registers .rsp - 8 := by simp [push]
  have haddress : s.registers .rsp - 8 + BitVec.ofNat 64 (8 * (n + 1)) =
      s.registers .rsp + BitVec.ofNat 64 (8 * n) := by
    bv_omega
  rw [cell, hrsp, haddress]
  exact load_store_of_apart (by bv_omega) (by bv_omega)

/-! ### Effects -/

@[simp] theorem after_mk (ws : List (BitVec 64)) (stored : Option (Width × BitVec 64 × BitVec 64)) :
    s.after ⟨n, ws, stored⟩ = ((s.drops n).storeAll stored).pushes ws := rfl

theorem pushes_append (ws ws' : List (BitVec 64)) :
    s.pushes (ws ++ ws') = (s.pushes ws).pushes ws' := by
  induction ws generalizing s with
  | nil => rfl
  | cons w ws ih => exact ih

theorem registers_drops :
    (s.drops n).registers .rsp = s.registers .rsp + BitVec.ofNat 64 (8 * n) := by
  induction n with
  | zero => simp [drops]
  | succ n ih =>
    rw [drops, dropTop, registers_setRegister_self, Width.setPart_w64, ih]
    bv_omega

theorem memory_drops : (s.drops n).memory = s.memory := by
  induction n with
  | zero => rfl
  | succ n ih => exact ih

theorem world_drops : (s.drops n).world = s.world := by
  induction n with
  | zero => rfl
  | succ n ih => exact ih

/-- **What words on the hardware stack are**: they lie below what was there, the last one on top. -/
theorem undergoes_pushes (ws : List (BitVec 64)) (hws : 8 * ws.length ≤ 0x10000000000000000) :
    s.Undergoes ⟨0, ws, none⟩ (s.pushes ws) := by
  induction ws using List.reverseRecOn with
  | nil =>
    refine ⟨?_, rfl, fun _ _ => rfl, rfl⟩
    simp [pushes]
  | append_singleton ws w ih =>
    rw [List.length_append, List.length_singleton] at hws
    obtain ⟨hpointer, hcells, hmemory, hworld⟩ := ih (by omega)
    have hpush : s.pushes (ws ++ [w]) = (s.pushes ws).push w := pushes_append ws [w]
    have hrsp : ((s.pushes ws).push w).registers .rsp = (s.pushes ws).registers .rsp - 8 := by
      simp [push]
    dsimp only at hpointer hcells hmemory
    rw [hpush]
    refine ⟨?_, ?_, fun a ha => ?_, hworld⟩
    · rw [hrsp, hpointer, List.length_append, List.length_singleton]
      bv_omega
    · rw [List.length_append, List.length_singleton, List.range_succ_eq_map, List.map_cons,
        List.map_map, cell_push_zero, List.reverse_append, ← hcells]
      refine congrArg (w :: ·) (List.map_congr_left fun n hn => cell_push_succ ?_)
      have := List.mem_range.mp hn
      omega
    · rw [hrsp, List.length_append, List.length_singleton] at ha
      have hkeep : ((s.pushes ws).push w).memory a = (s.pushes ws).memory a := by
        apply memory_store_of_le
        change 8 ≤ _
        omega
      rw [hkeep]
      apply hmemory
      bv_omega

theorem undergoes_after (he : 8 * e.left.length ≤ 0x10000000000000000) :
    s.Undergoes e (s.after e) := by
  obtain ⟨hpointer, hcells, hmemory, hworld⟩ :=
    undergoes_pushes (s := (s.drops e.taken).storeAll e.stored) e.left he
  have hrsp : ((s.drops e.taken).storeAll e.stored).registers .rsp =
      s.registers .rsp + BitVec.ofNat 64 (8 * e.taken) := by
    rw [← registers_drops]
    cases e.stored <;> rfl
  have hstored : ((s.drops e.taken).storeAll e.stored).memory = (s.storeAll e.stored).memory := by
    cases e.stored with
    | none => exact memory_drops
    | some what => simp only [storeAll, Machine.store, memory_drops]
  refine ⟨?_, hcells, fun a ha => ?_, ?_⟩
  · rw [after, hpointer, hrsp]
    simp
  · rw [after, hmemory a ha, storeAll, hstored]
  · rw [after, hworld]
    cases e.stored <;> exact world_drops

theorem eq_of_bare {s' : Machine World} (h : s'.bare = s.bare) :
    s'.registers .rsp = s.registers .rsp ∧ s'.memory = s.memory ∧ s'.world = s.world := by
  have hrsp : s'.bare.registers .rsp = s.bare.registers .rsp := by rw [h]
  have hmemory : s'.bare.memory = s.bare.memory := by rw [h]
  have hworld : s'.bare.world = s.bare.world := by rw [h]
  exact ⟨hrsp, hmemory, hworld⟩

/-- **A machine that is the one after an effect**, but for registers and flags, has undergone it. -/
theorem undergoes_of_bare (he : 8 * e.left.length ≤ 0x10000000000000000)
    (h : t.bare = s.bare.after e) :
    s.Undergoes e t := by
  rw [← bare_after] at h
  obtain ⟨hrsp, hmemory, hworld⟩ := eq_of_bare h
  have hcell : t.cell = (s.after e).cell := by
    funext n
    simp only [cell, load, hrsp, hmemory]
  have hafter := undergoes_after (s := s) he
  refine ⟨hrsp.trans hafter.pointer, ?_, fun a ha => ?_, hworld.trans hafter.world⟩
  · rw [hcell]
    exact hafter.cells
  · rw [hmemory]
    rw [hrsp] at ha
    exact hafter.memory a ha

end Laws

end Machine

end StackCompiler
