import StackCompiler.Proofs.Execution.Operators

/-!
# Conditions

Branches and loops take a cell for true if it is not zero. Of the operators that combine truth values,
two work bit by bit, and so do not always give the truth value of the combination.

* `Connective`: what two words are combined to, and what that should mean.
* `Logical`, `Spells`: conditions made of words and logical operators, and the tokens that spell them.
* `Logical.value`, `Logical.meaning`: the word that a condition leaves, and what it means.
* `Logical.Agrees`: conditions whose words combine as their meanings do.
* **`junction_follows`**: which way a branch or loop goes.
* `land_skips`: a branch that does not go the way its condition means.
-/

namespace StackCompiler

open Instruction Register Machine

/-! ## Truth values of words -/

/-- **A word is true if it is not zero.** -/
def isTrue (v : BitVec 64) : Bool := v != 0

theorem isTrue_iff {v : BitVec 64} : isTrue v = true ↔ v ≠ 0 := bne_iff_ne

@[simp] theorem isTrue_truthWord (b : Bool) : isTrue (truthWord b) = b := by
  cases b <;> rfl

/-- Operators that combine two truth values. -/
inductive Connective where
  | and | or | xor
  deriving DecidableEq, Repr

namespace Connective

def operator : Connective → Operator
  | .and => .logicalAnd
  | .or => .logicalOr
  | .xor => .logicalXor

/-- The word that two words are combined to: bit by bit. -/
def word (v w : BitVec 64) : Connective → BitVec 64
  | .and => v &&& w
  | .or => v ||| w
  | .xor => v ^^^ w

/-- The combination of truth values. -/
def truth (p q : Bool) : Connective → Bool
  | .and => p && q
  | .or => p || q
  | .xor => p ^^ q

/-- **Two words combine as their truth values do.** Two words that are both true have to have a bit in
common for one operator, and to be equal for another one. -/
def Agrees (v w : BitVec 64) : Connective → Prop
  | .and => v ≠ 0 → w ≠ 0 → v &&& w ≠ 0
  | .or => True
  | .xor => v ≠ 0 → w ≠ 0 → v = w

instance decidableAgrees (v w : BitVec 64) : ∀ c : Connective, Decidable (c.Agrees v w)
  | .and => inferInstanceAs (Decidable (v ≠ 0 → w ≠ 0 → v &&& w ≠ 0))
  | .or => inferInstanceAs (Decidable True)
  | .xor => inferInstanceAs (Decidable (v ≠ 0 → w ≠ 0 → v = w))

theorem agrees_iff (c : Connective) (v w : BitVec 64) :
    c.Agrees v w ↔ isTrue (c.word v w) = c.truth (isTrue v) (isTrue w) := by
  have hzero {v : BitVec 64} (hv : ¬ v = 0#64) : isTrue v = true := isTrue_iff.mpr hv
  by_cases hv : v = 0#64
  · subst hv
    cases c <;> simp [Agrees, word, truth, isTrue]
  by_cases hw : w = 0#64
  · subst hw
    cases c <;> simp [Agrees, word, truth, isTrue]
  rw [hzero hv, hzero hw]
  cases c with
  | and => simp [Agrees, word, truth, hv, hw, isTrue]
  | or =>
    have hor : ¬ v ||| w = 0#64 := fun h => hv (BitVec.or_eq_zero_iff.mp h).1
    simp [Agrees, word, truth, hzero hor]
  | xor => simp [Agrees, word, truth, hv, hw, isTrue]

/-- Ones and zeros combine as their truth values do, to a one or zero. -/
theorem word_truthWord (c : Connective) (p q : Bool) :
    c.word (truthWord p) (truthWord q) = truthWord (c.truth p q) := by
  cases c <;> cases p <;> cases q <;> rfl

end Connective

/-! ## Conditions -/

/-- **Conditions made of words and logical operators.** -/
inductive Logical where
  | word (v : BitVec 64)
  | not (e : Logical)
  | join (c : Connective) (e f : Logical)

namespace Logical

/-- **The word that a condition leaves.** -/
def value : Logical → BitVec 64
  | word v => v
  | not e => truthWord (e.value == 0)
  | join c e f => c.word e.value f.value

/-- **What a condition means.** -/
def meaning : Logical → Bool
  | word v => isTrue v
  | not e => !e.meaning
  | join c e f => c.truth e.meaning f.meaning

/-- The words of the condition combine as their truth values do. -/
def Agrees : Logical → Prop
  | word _ => True
  | not e => e.Agrees
  | join c e f => e.Agrees ∧ f.Agrees ∧ c.Agrees e.value f.value

/-- The condition is made of ones and zeros. -/
def IsBoolean : Logical → Prop
  | word v => ∃ b, v = truthWord b
  | not e => e.IsBoolean
  | join _ e f => e.IsBoolean ∧ f.IsBoolean

/-- How many cells of the stack the condition takes. -/
def depth : Logical → Nat
  | word _ => 1
  | not e => e.depth
  | join _ e f => max e.depth (f.depth + 1)

variable {e : Logical}

/-- **A condition is true when it means so**, if its words combine as their truth values do. -/
theorem isTrue_value (h : e.Agrees) : isTrue e.value = e.meaning := by
  induction e with
  | word v => rfl
  | not e ih =>
    rw [value, isTrue_truthWord, meaning, ← ih h, isTrue, bne, Bool.not_not]
  | join c e f ihe ihf =>
    obtain ⟨he, hf, hc⟩ := h
    rw [value, (c.agrees_iff _ _).mp hc, ihe he, ihf hf, meaning]

theorem value_of_isBoolean (h : e.IsBoolean) : e.value = truthWord e.meaning := by
  induction e with
  | word v =>
    obtain ⟨b, rfl⟩ := h
    rw [value, meaning, isTrue_truthWord]
  | not e ih =>
    rw [value, ih h, meaning]
    cases e.meaning <;> rfl
  | join c e f ihe ihf => rw [value, ihe h.1, ihf h.2, meaning, c.word_truthWord]

theorem agrees_of_isBoolean (h : e.IsBoolean) : e.Agrees := by
  induction e with
  | word v => trivial
  | not e ih => exact ih h
  | join c e f ihe ihf =>
    refine ⟨ihe h.1, ihf h.2, (c.agrees_iff _ _).mpr ?_⟩
    rw [value_of_isBoolean h.1, value_of_isBoolean h.2, c.word_truthWord]
    simp

theorem depth_pos (e : Logical) : 1 ≤ e.depth := by
  induction e with
  | word v => exact Nat.le_refl 1
  | not e ih => exact ih
  | join c e f ihe _ => exact Nat.le_trans ihe (Nat.le_max_left _ _)

end Logical

/-- The word that a literal pushes. -/
def Token.pushed? (token : Token) : Option (BitVec 64) :=
  match token.kind with
  | .operator (.constant b) => some (truthWord b)
  | .number type => (literalImmediate? token type).map Immediate.word
  | _ => none

/-- **Tokens that spell a condition.** Operators stand behind their operands. -/
inductive Spells : List Token → Logical → Prop where
  | word {token : Token} {v : BitVec 64} (h : token.pushed? = some v) : Spells [token] (.word v)
  | not {token : Token} {ts : List Token} {e : Logical} (h : token.kind = .operator .logicalNot)
      (he : Spells ts e) : Spells (ts ++ [token]) (.not e)
  | join {token : Token} {ts us : List Token} {e f : Logical} {c : Connective}
      (h : token.kind = .operator c.operator) (he : Spells ts e) (hf : Spells us f) :
      Spells (ts ++ (us ++ [token])) (.join c e f)

/-- The lines of expressions in a row. -/
def expressionsLines (ts : List Token) : List Line :=
  ts.flatMap fun token => (lowerExpression token {}).lines

/-! ## Running a condition -/

/-- **A word was left on the stack**, and so many cells below the stack were used up for it. -/
structure Machine.Leaves {World : Type} (s : Machine World) (n : Nat) (v : BitVec 64)
    (t : Machine World) : Prop where
  pointer : t.registers .rsp = s.registers .rsp - 8
  cell : t.cell 0 = v
  memory : ∀ a, (a - s.registers .rsp).toNat + 8 * n < 0x10000000000000000 →
    t.memory a = s.memory a

section Runs

variable {World : Type} {P : Platform World} {lines : List Line} {pc n m : Nat}
  {s t u : Machine World} {o : List Nat} {v w : BitVec 64}

theorem Machine.Undergoes.cell_zero {taken : Nat} {stored : Option (Width × BitVec 64 × BitVec 64)}
    (h : s.Undergoes ⟨taken, [v], stored⟩ t) : t.cell 0 = v := (List.cons.inj h.cells).1

theorem leaves_of_push (h : s.Undergoes ⟨0, [v], none⟩ t) : s.Leaves 1 v t := by
  have hrsp : t.registers .rsp = s.registers .rsp - 8 := by
    rw [h.pointer]
    simp
  refine ⟨hrsp, h.cell_zero, fun a ha => h.memory a ?_⟩
  rw [hrsp, List.length_singleton]
  bv_omega

/-- An operator with one operand works on what was left. -/
theorem Machine.Leaves.unary (h : s.Leaves n v t) (hn : 1 ≤ n) (ht : t.Undergoes ⟨1, [w], none⟩ u) :
    s.Leaves n w u := by
  have hrsp : u.registers .rsp = s.registers .rsp - 8 := by
    rw [ht.pointer, ← h.pointer, List.length_singleton, BitVec.add_sub_cancel]
  refine ⟨hrsp, ht.cell_zero, fun a ha => (ht.memory a ?_).trans (h.memory a ha)⟩
  rw [hrsp, List.length_singleton]
  bv_omega

/-- What was left stays below what is left next. -/
theorem Machine.Leaves.cell_one (h : s.Leaves n v t) (ht : t.Leaves m w u)
    (hm : 8 * (m + 1) ≤ 0x10000000000000000) : u.cell 1 = v := by
  rw [← h.cell, Machine.cell, Machine.cell, ht.pointer]
  have haddress : t.registers .rsp - 8 + BitVec.ofNat 64 (8 * 1) =
      t.registers .rsp + BitVec.ofNat 64 (8 * 0) := by
    bv_omega
  rw [haddress]
  refine load_congr fun b hb => ht.memory b ?_
  bv_omega

/-- An operator with two operands works on what was left last. -/
theorem Machine.Leaves.binary {s' : Machine World} {x : BitVec 64} (h : s.Leaves n v t)
    (ht : t.Leaves m w u) (hm : 8 * (m + 1) ≤ 0x10000000000000000)
    (hu : u.Undergoes ⟨2, [x], none⟩ s') :
    s.Leaves (max n (m + 1)) x s' := by
  have hrsp : s'.registers .rsp = s.registers .rsp - 8 := by
    rw [hu.pointer, ht.pointer, h.pointer, List.length_singleton]
    bv_omega
  refine ⟨hrsp, hu.cell_zero, fun a ha => ?_⟩
  have hn := Nat.le_max_left n (m + 1)
  have hm' := Nat.le_max_right n (m + 1)
  refine (hu.memory a ?_).trans ((ht.memory a ?_).trans (h.memory a (by omega)))
  · rw [hrsp, List.length_singleton]
    bv_omega
  · rw [h.pointer]
    bv_omega

/-- **A literal** leaves its word. -/
theorem comes_of_pushed {token : Token} (hpushed : token.pushed? = some v)
    (h : Sits lines pc (lowerExpression token {}).lines) :
    Comes P lines (fun y => y.line = pc + (lowerExpression token {}).lines.length ∧ y.opened = o ∧
      s.Leaves 1 v y.machine) ⟨pc, s, o⟩ := by
  unfold Token.pushed? at hpushed
  split at hpushed
  · next b hkind =>
    cases hpushed
    refine (comes_of_lowerExpression hkind h (fun h => by cases h) fun h => by cases h).mono ?_
    exact fun y hy => ⟨hy.1, hy.2.1, leaves_of_push hy.2.2⟩
  · next type hkind =>
    obtain ⟨value, hvalue, rfl⟩ := Option.map_eq_some_iff.mp hpushed
    have hgives : (lowerExpression token).Gives (.remark (.token token.kind.name token.index) ::
        [mov rax.whole (.immediate value), push rax.whole].map code) () := by
      refine (Emission.Gives.write [_]).bind ?_
      simp only [hkind, hvalue]
      exact .write _
    have hlines := congrArg Emitted.lines (hgives "")
    change (lowerExpression token {}).lines = _ at hlines
    rw [hlines] at h ⊢
    refine .of_sure (.remark h.1) ((comes_of_brings h.2 (constant_brings value)).mono ?_)
    exact fun y hy => ⟨hy.1, hy.2.1, leaves_of_push hy.2.2⟩
  · cases hpushed

/-- **A condition leaves its value.** -/
theorem comes_of_spells {ts : List Token} {e : Logical} (hspells : Spells ts e)
    (hdepth : 8 * e.depth ≤ 0x10000000000000000) (h : Sits lines pc (expressionsLines ts)) :
    Comes P lines (fun y => y.line = pc + (expressionsLines ts).length ∧ y.opened = o ∧
      s.Leaves e.depth e.value y.machine) ⟨pc, s, o⟩ := by
  induction hspells generalizing pc s with
  | word hpushed =>
    rw [expressionsLines, List.flatMap_singleton] at h ⊢
    exact comes_of_pushed hpushed h
  | @not token ts e hkind _ ih =>
    simp only [expressionsLines, List.flatMap_append, List.flatMap_singleton, sits_append,
      List.length_append] at h ⊢
    refine (ih hdepth h.1).trans ?_
    rintro ⟨_, t, _⟩ ⟨hpc, ho, ht⟩
    dsimp only at hpc ho ht
    subst hpc ho
    refine (comes_of_lowerExpression hkind h.2 (fun h => by cases h) fun h => by cases h).mono ?_
    rintro y ⟨hline, hopened, hdoes⟩
    refine ⟨by rw [hline, Nat.add_assoc], hopened, ht.unary e.depth_pos ?_⟩
    have hdoes : t.Undergoes ⟨1, [truthWord (t.cell 0 == 0)], none⟩ y.machine := hdoes
    rwa [ht.cell] at hdoes
  | @join token ts us e f c hkind _ _ ihe ihf =>
    simp only [expressionsLines, List.flatMap_append, List.flatMap_singleton, sits_append,
      List.length_append] at h ⊢
    rw [Logical.depth] at hdepth ⊢
    have he := Nat.le_max_left e.depth (f.depth + 1)
    have hf := Nat.le_max_right e.depth (f.depth + 1)
    refine (ihe (by omega) h.1).trans ?_
    rintro ⟨_, t, _⟩ ⟨hpc, ho, ht⟩
    dsimp only at hpc ho ht
    subst hpc ho
    refine (ihf (by omega) h.2.1).trans ?_
    rintro ⟨_, u, _⟩ ⟨hpc, ho, hu⟩
    dsimp only at hpc ho hu
    subst hpc ho
    refine (comes_of_lowerExpression hkind h.2.2 (fun h => by cases c <;> cases h)
      fun h => by cases c <;> cases h).mono ?_
    rintro y ⟨hline, hopened, hdoes⟩
    refine ⟨by rw [hline]; omega, hopened, ht.binary hu (by omega) ?_⟩
    have hdoes : u.Undergoes ⟨2, [c.word (u.cell 1) (u.cell 0)], none⟩ y.machine := by
      cases c <;> exact hdoes
    rwa [hu.cell, ht.cell_one hu (by omega)] at hdoes

/-! ## Branches and loops -/

theorem exec_test {address : Label → BitVec 64} {spare : Flags} {r : Register} :
    (Instruction.binary .test r.whole r.whole).exec address spare s =
      some (s.flagged (.ofResult .w64 (s.registers r) false false)) := by
  simp [flagged, exec, Machine.read, operationWidth, Operand.width?, BinaryOp.onlyFlags,
    BinaryOp.result]

/-- **A jump under a condition.** -/
theorem comes_of_jumpIfZero {Q : Config World → Prop} {l : Label} {target : Nat}
    (honce : SymbolsOnce lines) (h : lines[pc]? = some (code (.jumpIfZero l)))
    (htarget : lines[target]? = some (.label l))
    (hnext : Comes P lines Q ⟨if s.flags.zero then target else pc + 1, s, o⟩) :
    Comes P lines Q ⟨pc, s, o⟩ := by
  cases hzero : s.flags.zero with
  | false =>
    rw [hzero] at hnext
    refine .step ⟨_, .noJump h hzero⟩ fun y hy => ?_
    cases hy with
    | noJump => exact hnext
    | plain h' hexec =>
      rw [h] at h'
      cases h'
      cases hexec
    | _ => simp_all
  | true =>
    rw [hzero] at hnext
    refine .step ⟨_, .jumpIfZero h hzero htarget⟩ fun y hy => ?_
    cases hy with
    | @jumpIfZero _ place _ _ l' h' _ hplace =>
      rw [h] at h'
      cases h'
      rw [honce place target l hplace htarget]
      exact hnext
    | plain h' hexec =>
      rw [h] at h'
      cases h'
      cases hexec
    | _ => simp_all

/-- Branches and loops follow the value of their condition. -/
theorem comes_of_junction {ts : List Token} {e : Logical} (hspells : Spells ts e)
    (hdepth : 8 * e.depth ≤ 0x10000000000000000) (honce : SymbolsOnce lines) {a target : Nat}
    {remark : Remark} {condition body : Piece} {index : Nat} {skip leave : Label}
    {bodyLines : List Line} (h : Sits lines a
      (junctionLines remark condition body index skip leave (expressionsLines ts) bodyLines))
    (htarget : lines[target]? = some (.label skip)) :
    Comes P lines (fun y => y.opened = o ∧ y.machine.registers .rsp = s.registers .rsp ∧
      y.line = if isTrue e.value then a + 2 + (expressionsLines ts).length + 5 else target)
      ⟨a, s, o⟩ := by
  obtain ⟨hat, hcondition, -⟩ := JunctionAt.of_sits h rfl rfl
  refine .of_sure (.remark hat.remark) (.of_sure (.label hat.start) ?_)
  refine (comes_of_spells hspells hdepth hcondition).trans ?_
  rintro ⟨_, t, _⟩ ⟨hpc, ho, ht⟩
  dsimp only at hpc ho ht
  subst hpc ho
  refine .of_sure (.label hat.tested) ?_
  have htested : t.Brings P.address
      (fun u => u.registers .rsp = s.registers .rsp ∧ u.flags.zero = !isTrue e.value)
      [Instruction.pop .rax, .binary .test rax.whole rax.whole] := by
    have hrsp : (t.pop .rax).registers .rsp = s.registers .rsp := by
      change t.registers .rsp + 8 = _
      rw [ht.pointer, BitVec.sub_add_cancel]
    simp [exec_test, hrsp, ht.cell, Flags.ofResult, isTrue, bne]
  have hsits : Sits lines (a + 2 + (expressionsLines ts).length + 1)
      ([Instruction.pop .rax, .binary .test rax.whole rax.whole].map code) :=
    ⟨hat.pop, hat.test, trivial⟩
  refine (comes_of_brings hsits htested).trans ?_
  rintro ⟨_, u, _⟩ ⟨hpc, ho, hrsp, hzero⟩
  dsimp only at hpc ho hrsp hzero
  subst hpc ho
  refine comes_of_jumpIfZero honce hat.skip htarget ?_
  rw [hzero]
  cases htrue : isTrue e.value with
  | true => exact .of_sure (.label hat.enter) (.here ⟨rfl, hrsp, rfl⟩)
  | false => exact .here ⟨rfl, hrsp, rfl⟩

end Runs

/-- **Branches and loops go the way their condition means**, if its words combine as their truth
values do: to their body if it is true, and over it otherwise. In any case they follow the word that
the condition leaves, which is gone from the stack then. Ones and zeros combine as they should, and
any two words do under the operator for alternatives and under negation. Under the other two
operators they do so exactly if they are not both true, or else have a bit in common or are equal. -/
theorem junction_follows {ts : List Token} {e : Logical} (hspells : Spells ts e)
    (hdepth : 8 * e.depth ≤ 0x10000000000000000) {lines : List Line} (honce : SymbolsOnce lines)
    {a target : Nat} {remark : Remark} {condition body : Piece} {index : Nat} {skip leave : Label}
    {bodyLines : List Line} (h : Sits lines a
      (junctionLines remark condition body index skip leave (expressionsLines ts) bodyLines))
    (htarget : lines[target]? = some (.label skip)) {World : Type} (P : Platform World)
    (s : Machine World) (o : List Nat) :
    let inside := a + 2 + (expressionsLines ts).length + 5
    let Goes (b : Bool) := Comes P lines (fun y => y.opened = o ∧
      y.machine.registers .rsp = s.registers .rsp ∧ y.line = if b then inside else target) ⟨a, s, o⟩
    Goes (isTrue e.value) ∧ (e.Agrees → Goes e.meaning) ∧ (e.IsBoolean → e.Agrees) ∧
      ∀ (c : Connective) (v w : BitVec 64),
        isTrue (c.word v w) = c.truth (isTrue v) (isTrue w) ↔ c.Agrees v w := by
  intro inside Goes
  have hgoes : Goes (isTrue e.value) := comes_of_junction hspells hdepth honce h htarget
  refine ⟨hgoes, fun hagrees => ?_, Logical.agrees_of_isBoolean, fun c v w => (c.agrees_iff v w).symm⟩
  rwa [Logical.isTrue_value hagrees] at hgoes

/-- The lines of a program with one function. -/
def Parsed.mainLines (p : Parsed) : List Line :=
  (lowerUnit {} p.store (emitLevels p.store {}) [⟨0, 0⟩] {}).lines

/-- A number that is written as such. -/
def digitToken (column index value : Nat) (text : String) : Token :=
  ⟨.number (.signed .w64), ⟨1, column⟩, index, .int value, text⟩

/-- A loop under a condition of ones and zeros and a negated word. -/
def loopProgram : Parsed :=
  parseChars {} (Store.empty 100) "func main { loop (true 0 lor 7 lnot lxor) { } }".toList

/-- The body of the loop is entered. -/
theorem junction_follows_loop :
    let tokens : List Token := [⟨.operator (.constant true), ⟨1, 19⟩, 5, .int 1, "true"⟩,
      digitToken 24 6 0 "0", ⟨.operator .logicalOr, ⟨1, 26⟩, 7, .none, "lor"⟩,
      digitToken 30 8 7 "7", ⟨.operator .logicalNot, ⟨1, 32⟩, 9, .none, "lnot"⟩,
      ⟨.operator .logicalXor, ⟨1, 37⟩, 10, .none, "lxor"⟩]
    let e : Logical := .join .xor (.join .or (.word 1) (.word 0)) (.not (.word 7))
    let lines := loopProgram.mainLines
    Spells tokens e ∧ e.Agrees ∧ e.meaning = true ∧ SymbolsOnce lines ∧
      Sits lines 8 (junctionLines .loop .loopCondition .loopBody 0 (.control .after .loopBody 0)
        (.control .prior .loopCondition 0) (expressionsLines tokens) []) ∧
      lines[41]? = some (.label (.control .after .loopBody 0)) ∧
      Comes plainPlatform lines (fun y => y.opened = [] ∧
        y.machine.registers .rsp = 0x7ffffff0 ∧ y.line = 40) ⟨8, plainMachine, []⟩ := by
  intro tokens e lines
  have hspells : Spells tokens e :=
    @Spells.join _ [_, _, _] [_, _] _ _ _ rfl
      (@Spells.join _ [_] [_] _ _ _ rfl (.word rfl) (.word rfl))
      (@Spells.not _ [_] _ rfl (.word rfl))
  have hfacts : (definedLabels lines).Nodup ∧ Sits lines 8 (junctionLines .loop .loopCondition
      .loopBody 0 (.control .after .loopBody 0) (.control .prior .loopCondition 0)
      (expressionsLines tokens) []) ∧ lines[41]? = some (.label (.control .after .loopBody 0)) := by
    decide +kernel
  obtain ⟨hnodup, hsits, htarget⟩ := hfacts
  have honce := symbolsOnce_of_nodup hnodup
  have hagrees : e.Agrees := ⟨⟨trivial, trivial, trivial⟩, trivial, by decide⟩
  exact ⟨hspells, hagrees, by decide, honce, hsits, htarget,
    (junction_follows hspells (by decide) honce hsits htarget plainPlatform plainMachine []).2.1 hagrees⟩

/-- A branch under a condition of two true words. -/
def branchProgram : Parsed :=
  parseChars {} (Store.empty 100) "func main { if (1 2 land) { 3 } }".toList

/-- **A branch that does not go the way its condition means**: two true words with no bit in common
leave a false one. The program comes from its entry to the end of the branch with nothing on the
stack, while the body, had it been run, would have left its number there. Another operator leaves a
true word for two true words. -/
theorem land_skips :
    let tokens : List Token := [digitToken 17 5 1 "1", digitToken 19 6 2 "2",
      ⟨.operator .logicalAnd, ⟨1, 21⟩, 7, .none, "land"⟩]
    let e : Logical := .join .and (.word 1) (.word 2)
    let lines := branchProgram.mainLines
    branchProgram.outcome = .ok [⟨0, 0⟩] ∧ Spells tokens e ∧ e.meaning = true ∧
      isTrue e.value = false ∧
      Sits lines 8 (junctionLines .branch .branchCondition .branchBody 0
        (.control .after .branchBody 0) (.control .after .branchBody 0) (expressionsLines tokens)
        (expressionsLines [digitToken 29 10 3 "3"])) ∧
      lines[30]? = some (.label (.control .after .branchBody 0)) ∧
      Comes plainPlatform lines (fun y => y.line = 30 ∧ y.opened = [] ∧
        y.machine.registers .rsp = plainMachine.registers .rsp) ⟨5, plainMachine, []⟩ ∧
      Connective.xor.truth (isTrue 1) (isTrue 2) = false ∧ isTrue (Connective.xor.word 1 2) = true := by
  intro tokens e lines
  have hspells : Spells tokens e := @Spells.join _ [_] [_] _ _ _ rfl (.word rfl) (.word rfl)
  have hfacts : branchProgram.outcome = .ok [⟨0, 0⟩] ∧ (definedLabels lines).Nodup ∧
      Sits lines 5 [.label (.entry "main"), code (mov rax.whole (.address .returnEnd)),
        code (mov (.cell .returnTop) rax.whole)] ∧
      Sits lines 8 (junctionLines .branch .branchCondition .branchBody 0
        (.control .after .branchBody 0) (.control .after .branchBody 0) (expressionsLines tokens)
        (expressionsLines [digitToken 29 10 3 "3"])) ∧
      lines[30]? = some (.label (.control .after .branchBody 0)) := by
    decide +kernel
  obtain ⟨houtcome, hnodup, hstart, hsits, htarget⟩ := hfacts
  have hfalse : isTrue e.value = false := by decide
  refine ⟨houtcome, hspells, by decide, hfalse, hsits, htarget, .of_sure (.label hstart.1) ?_,
    by decide, by decide⟩
  have hentered : plainMachine.Brings plainPlatform.address
      (fun t => t.registers .rsp = plainMachine.registers .rsp)
      [mov rax.whole (.address .returnEnd), mov (.cell .returnTop) rax.whole] := by
    have hkept : (plainMachine.setRegister .rax .w64
        (plainPlatform.address .returnEnd)).registers .rsp = plainMachine.registers .rsp :=
      registers_setRegister_of_ne (by decide)
    simp [exec_mov_address, exec_mov_to_cell, hkept]
  have hentry : Sits lines 6
      ([mov rax.whole (.address .returnEnd), mov (.cell .returnTop) rax.whole].map code) := hstart.2
  refine (comes_of_brings hentry hentered).trans ?_
  rintro ⟨_, t, _⟩ ⟨hpc, ho, hpointer⟩
  dsimp only at hpc ho hpointer
  subst hpc ho
  refine (comes_of_junction hspells (by decide) (symbolsOnce_of_nodup hnodup) hsits htarget).mono ?_
  rintro y ⟨hopened, hrsp, hline⟩
  rw [hfalse] at hline
  exact ⟨hline, hopened, hrsp.trans hpointer⟩

end StackCompiler
