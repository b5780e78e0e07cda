import StackCompiler.Assembly.Lowering

/-!
# Running lines and running blocks

Two ways to run the body of a function. The machine runs lines one after the other and goes to labels
where jumps tell it to. The blocks of a store are run by their structure. Both take the code of a
leaf, that is of an operator, literal, name, call or line of assembly, as one step, whose meaning is
left open.

* `Machine`: registers, memory and flags of the target machine, and all that lies around it.
* `Step`: what the machine does on a line.
* `Runs`: what a row of blocks does.
-/

namespace StackCompiler

/-! ## Machines -/

/-- The flags that a test sets. -/
structure Flags where
  zero : Bool
  sign : Bool
  parity : Bool
  carry : Bool
  overflow : Bool

/-- **A state of the target machine.** The world is everything else that code can reach. -/
structure Machine (World : Type) where
  registers : Register → BitVec 64
  memory : BitVec 64 → BitVec 8
  flags : Flags
  world : World

namespace Machine

variable {World : Type} (s : Machine World)

/-- The word at an address, whose lowest byte comes first. -/
def load (address : BitVec 64) : BitVec 64 :=
  s.memory (address + 7) ++ s.memory (address + 6) ++ s.memory (address + 5) ++
    s.memory (address + 4) ++ s.memory (address + 3) ++ s.memory (address + 2) ++
    s.memory (address + 1) ++ s.memory address

/-- The word on top of the hardware stack. -/
def top : BitVec 64 := s.load (s.registers .rsp)

/-- Takes the top of the hardware stack into a register. -/
def pop (target : Register) : Machine World :=
  { s with
    registers := fun r =>
      if r = target then s.top
      else if r = .rsp then s.registers .rsp + 8
      else s.registers r }

/-- Sets the flags by the common bits of two registers. -/
def test (a b : Register) : Machine World :=
  let value := s.registers a &&& s.registers b
  { s with
    flags :=
      { zero := value == 0
        sign := value.msb
        parity := (List.range 8).countP value.getLsbD % 2 == 0
        carry := false
        overflow := false } }

/-- **A condition is taken from the stack and tested.** -/
def popTested : Machine World := (s.pop .rax).test .rax .rax

theorem zero_popTested : s.popTested.flags.zero = (s.top == 0) := by
  simp [popTested, test, pop]

end Machine

/-- **What the code of leaves does to a machine**, given the lines of a leaf. It may stop in several
states or in none. -/
abbrev LeafMeaning (World : Type) := List Line → Machine World → Machine World → Prop

/-! ## Running lines -/

/-- Does the remark announce the code of a token? -/
def Remark.isToken : Remark → Bool
  | .token .. => true
  | _ => false

/-- Can the line be a part of the code of a leaf, behind its remark? -/
def Line.isPlain : Line → Bool
  | .instruction (.jump _) | .instruction (.jumpIfZero _) => false
  | .instruction _ | .verbatim _ => true
  | _ => false

/-- The code of the leaf whose remark stands at a place. -/
def leafCode (lines : List Line) (pc : Nat) : List Line :=
  lines[pc]?.toList ++ (lines.drop (pc + 1)).takeWhile Line.isPlain

section Steps

variable {World : Type}

/-- **What the machine does on a line.** It stands between two lines and keeps the number of those
before it. -/
inductive Step (leaf : LeafMeaning World) (lines : List Line) :
    Nat × Machine World → Nat × Machine World → Prop where
  /-- Labels do nothing. -/
  | label {pc : Nat} {s : Machine World} {l : Label} (h : lines[pc]? = some (.label l)) :
      Step leaf lines (pc, s) (pc + 1, s)
  /-- Remarks do nothing. -/
  | remark {pc : Nat} {s : Machine World} {r : Remark} (h : lines[pc]? = some (.remark r))
      (hr : r.isToken = false) : Step leaf lines (pc, s) (pc + 1, s)
  /-- The code of a leaf is one step. -/
  | leaf {pc : Nat} {s s' : Machine World} {r : Remark} (h : lines[pc]? = some (.remark r))
      (hr : r.isToken = true) (hleaf : leaf (leafCode lines pc) s s') :
      Step leaf lines (pc, s) (pc + (leafCode lines pc).length, s')
  /-- A word is taken from the stack. -/
  | pop {pc : Nat} {s : Machine World} {r : Register}
      (h : lines[pc]? = some (code (.pop r))) : Step leaf lines (pc, s) (pc + 1, s.pop r)
  /-- Flags are set. -/
  | test {pc : Nat} {s : Machine World} {a b : Register}
      (h : lines[pc]? = some (code (.binary .test a.whole b.whole))) :
      Step leaf lines (pc, s) (pc + 1, s.test a b)
  /-- A jump goes to its label. -/
  | jump {pc target : Nat} {s : Machine World} {l : Label} (h : lines[pc]? = some (code (.jump l)))
      (htarget : lines[target]? = some (.label l)) : Step leaf lines (pc, s) (target, s)
  /-- A jump under a condition goes to its label if the condition holds. -/
  | jumpIfZero {pc target : Nat} {s : Machine World} {l : Label}
      (h : lines[pc]? = some (code (.jumpIfZero l))) (hzero : s.flags.zero = true)
      (htarget : lines[target]? = some (.label l)) : Step leaf lines (pc, s) (target, s)
  /-- It does nothing otherwise. -/
  | noJump {pc : Nat} {s : Machine World} {l : Label}
      (h : lines[pc]? = some (code (.jumpIfZero l))) (hzero : s.flags.zero = false) :
      Step leaf lines (pc, s) (pc + 1, s)

end Steps

/-! ## Running blocks -/

/-- Does the block stand for code of its own? -/
def Block.hasCode : Block → Bool
  | .expression _ | .reference .. | .call .. | .assembly _ => true
  | _ => false

/-- The lines that a block without blocks inside is lowered to. -/
def blockCode (store : Store) (id : BlockId) : List Line := (lowerBlock store 1 id {}).lines

section Runs

variable {World : Type}

/-- **What a row of blocks does.** -/
inductive Runs (leaf : LeafMeaning World) (store : Store) :
    List BlockId → Machine World → Machine World → Prop where
  /-- Nothing is left to do. -/
  | nil (s : Machine World) : Runs leaf store [] s s
  /-- A leaf does what its code does. -/
  | leaf {id : BlockId} {rest : List BlockId} {block : Block} {s s₁ s' : Machine World}
      (hblock : store.block? id = some block) (hcode : block.hasCode = true)
      (hleaf : leaf (blockCode store id) s s₁) (hrest : Runs leaf store rest s₁ s') :
      Runs leaf store (id :: rest) s s'
  /-- A cast does nothing. -/
  | cast {id : BlockId} {rest : List BlockId} {location : Location} {types : List Token}
      {s s' : Machine World} (hblock : store.block? id = some (.cast location types))
      (hrest : Runs leaf store rest s s') : Runs leaf store (id :: rest) s s'
  /-- A scope does what its blocks do. -/
  | scope {id : BlockId} {rest children : List BlockId} {bracket : Bracket} {location : Location}
      {s s₁ s' : Machine World} (hblock : store.block? id = some (.scope bracket location children))
      (hinside : Runs leaf store children s s₁) (hrest : Runs leaf store rest s₁ s') :
      Runs leaf store (id :: rest) s s'
  /-- A branch whose condition leaves something else than zero does what its body does. -/
  | taken {id condition body : BlockId} {rest : List BlockId} {location : Location}
      {next : Option BlockId} {index : Nat} {s s₁ s₂ s' : Machine World}
      (hblock : store.block? id = some (.branch location condition body next index))
      (hcondition : Runs leaf store [condition] s s₁) (htop : s₁.top ≠ 0)
      (hbody : Runs leaf store [body] s₁.popTested s₂) (hrest : Runs leaf store rest s₂ s') :
      Runs leaf store (id :: rest) s s'
  /-- A branch without alternative does nothing more if its condition leaves zero. -/
  | skipped {id condition body : BlockId} {rest : List BlockId} {location : Location} {index : Nat}
      {s s₁ s' : Machine World}
      (hblock : store.block? id = some (.branch location condition body none index))
      (hcondition : Runs leaf store [condition] s s₁) (htop : s₁.top = 0)
      (hrest : Runs leaf store rest s₁.popTested s') : Runs leaf store (id :: rest) s s'
  /-- A branch with an alternative does what the alternative does if its condition leaves zero. -/
  | otherwise {id condition body alternative instead : BlockId} {rest : List BlockId}
      {location location' : Location} {index index' : Nat} {s s₁ s₂ s' : Machine World}
      (hblock : store.block? id =
        some (.branch location condition body (some alternative) index))
      (hcondition : Runs leaf store [condition] s s₁) (htop : s₁.top = 0)
      (halternative : store.block? alternative = some (.alternative location' instead index'))
      (hinstead : Runs leaf store [instead] s₁.popTested s₂) (hrest : Runs leaf store rest s₂ s') :
      Runs leaf store (id :: rest) s s'
  /-- An alternative is left to its branch. -/
  | alternative {id body : BlockId} {rest : List BlockId} {location : Location} {index : Nat}
      {s s' : Machine World} (hblock : store.block? id = some (.alternative location body index))
      (hrest : Runs leaf store rest s s') : Runs leaf store (id :: rest) s s'
  /-- A loop ends when its condition leaves zero. -/
  | done {id condition body : BlockId} {rest : List BlockId} {location : Location} {index : Nat}
      {s s₁ s' : Machine World}
      (hblock : store.block? id = some (.loop location condition body index))
      (hcondition : Runs leaf store [condition] s s₁) (htop : s₁.top = 0)
      (hrest : Runs leaf store rest s₁.popTested s') : Runs leaf store (id :: rest) s s'
  /-- It does what its body does and starts again otherwise. -/
  | again {id condition body : BlockId} {rest : List BlockId} {location : Location} {index : Nat}
      {s s₁ s₂ s' : Machine World}
      (hblock : store.block? id = some (.loop location condition body index))
      (hcondition : Runs leaf store [condition] s s₁) (htop : s₁.top ≠ 0)
      (hbody : Runs leaf store [body] s₁.popTested s₂)
      (hagain : Runs leaf store (id :: rest) s₂ s') : Runs leaf store (id :: rest) s s'

end Runs

end StackCompiler
