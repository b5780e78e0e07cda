import StackCompiler.Proofs.Execution.Segment
import StackCompiler.Proofs.Lowering.Lines

/-!
# Code at a place

What the machine does on lines depends on where they stand: jumps go to wherever their label is.

* `Sits`: lines that stand at a place.
* `LabelsOnce`: no label of a branch or loop stands at two places.
* `Forced.label`, `Forced.jump` and others: what the machine does on single lines.
* `Segment.ofLeaf`, **`Segment.branch`**, **`Segment.fork`**, **`Segment.loop`**: segments of code.
-/

namespace StackCompiler

open Relation

/-! ## Lines at a place -/

/-- **Lines stand at a place**, one after the other. -/
def Sits (lines : List Line) : Nat → List Line → Prop
  | _, [] => True
  | a, line :: rest => lines[a]? = some line ∧ Sits lines (a + 1) rest

instance decidableSits (lines : List Line) : ∀ a xs, Decidable (Sits lines a xs)
  | _, [] => inferInstanceAs (Decidable True)
  | a, _ :: rest =>
    have := decidableSits lines (a + 1) rest
    inferInstanceAs (Decidable (_ ∧ _))

/-- No label of a branch or loop stands at two places. -/
def LabelsOnce (lines : List Line) : Prop :=
  ∀ (i j : Nat) (edge : Edge) (piece : Piece) (index : Nat),
    lines[i]? = some (mark edge piece index) → lines[j]? = some (mark edge piece index) → i = j

/-- The line at a place, if there is one, is no code of a leaf. -/
def Stops (lines : List Line) (a : Nat) : Prop :=
  ∀ line, lines[a]? = some line → line.isPlain = false

section Placement

variable {lines xs ys : List Line} {a : Nat}

theorem sits_append : Sits lines a (xs ++ ys) ↔ Sits lines a xs ∧ Sits lines (a + xs.length) ys := by
  induction xs generalizing a with
  | nil => simp [Sits]
  | cons x xs ih =>
    have hplace : a + 1 + xs.length = a + (x :: xs).length := by
      rw [List.length_cons]
      omega
    simp only [List.cons_append, Sits, ih, and_assoc, hplace]

theorem sits_of_append (before seg behind : List Line) :
    Sits (before ++ (seg ++ behind)) before.length seg := by
  induction seg generalizing before with
  | nil => trivial
  | cons x seg ih =>
    refine ⟨by simp, ?_⟩
    have hrest := ih (before ++ [x])
    rwa [List.append_assoc, List.length_append, List.singleton_append] at hrest

/-- The plain lines at a place, up to a line that is not plain. -/
theorem takeWhile_of_sits (h : Sits lines a xs) (hplain : ∀ x ∈ xs, x.isPlain = true)
    (hstops : Stops lines (a + xs.length)) : (lines.drop a).takeWhile Line.isPlain = xs := by
  induction xs generalizing a with
  | nil =>
    cases hline : lines[a]? with
    | none =>
      rw [List.drop_eq_nil_of_le (List.getElem?_eq_none_iff.mp hline)]
      rfl
    | some line =>
      obtain ⟨hlt, rfl⟩ := List.getElem?_eq_some_iff.mp hline
      rw [List.drop_eq_getElem_cons hlt, List.takeWhile_cons, hstops _ hline]
      rfl
  | cons x xs ih =>
    obtain ⟨hx, hxs⟩ := h
    obtain ⟨hlt, rfl⟩ := List.getElem?_eq_some_iff.mp hx
    rw [List.length_cons, Nat.add_comm xs.length, ← Nat.add_assoc] at hstops
    rw [List.forall_mem_cons] at hplain
    rw [List.drop_eq_getElem_cons hlt, List.takeWhile_cons, hplain.1, if_pos rfl,
      ih hxs hplain.2 hstops]

end Placement

/-! ## Single lines -/

section Lines

variable {World : Type} {leaf : LeafMeaning World} {lines : List Line} {pc : Nat}
  {s : Machine World}

namespace Forced

theorem label {l : Label} (h : lines[pc]? = some (.label l)) :
    Forced leaf lines (pc, s) (pc + 1, s) := by
  refine ⟨.label h, fun z hz => ?_⟩
  cases hz <;> simp_all

theorem remark {r : Remark} (h : lines[pc]? = some (.remark r)) (hr : r.isToken = false) :
    Forced leaf lines (pc, s) (pc + 1, s) := by
  refine ⟨.remark h hr, fun z hz => ?_⟩
  cases hz <;> simp_all

theorem pop {r : Register} (h : lines[pc]? = some (code (.pop r))) :
    Forced leaf lines (pc, s) (pc + 1, s.pop r) := by
  refine ⟨.pop h, fun z hz => ?_⟩
  cases hz <;> simp_all

theorem test {a b : Register} (h : lines[pc]? = some (code (.binary .test a.whole b.whole))) :
    Forced leaf lines (pc, s) (pc + 1, s.test a b) := by
  refine ⟨.test h, fun z hz => ?_⟩
  cases hz <;> simp_all

variable {target index : Nat} {edge : Edge} {piece : Piece}

theorem jump (honce : LabelsOnce lines)
    (h : lines[pc]? = some (code (.jump (.control edge piece index))))
    (htarget : lines[target]? = some (mark edge piece index)) :
    Forced leaf lines (pc, s) (target, s) := by
  refine ⟨.jump h htarget, fun z hz => ?_⟩
  cases hz with
  | @jump _ place _ l h' hplace =>
    rw [h] at h'
    cases h'
    rw [honce place target _ _ _ hplace htarget]
  | _ => simp_all

theorem jumpIfZero (honce : LabelsOnce lines)
    (h : lines[pc]? = some (code (.jumpIfZero (.control edge piece index))))
    (htarget : lines[target]? = some (mark edge piece index)) :
    Forced leaf lines (pc, s) (if s.flags.zero = true then target else pc + 1, s) := by
  constructor
  · split
    · next hzero => exact .jumpIfZero h hzero htarget
    · next hzero => exact .noJump h (Bool.eq_false_iff.mpr hzero)
  · intro z hz
    cases hz with
    | @jumpIfZero _ place _ l h' hzero hplace =>
      rw [h] at h'
      cases h'
      rw [if_pos hzero, honce place target _ _ _ hplace htarget]
    | _ => simp_all

end Forced

/-! ## Leaves -/

/-- **The code of a leaf is a segment**, if it ends where it seems to end. -/
theorem Segment.ofLeaf {r : Remark} {plain : List Line} (hsits : Sits lines pc (.remark r :: plain))
    (hr : r.isToken = true) (hplain : ∀ x ∈ plain, x.isPlain = true)
    (hstops : Stops lines (pc + (Line.remark r :: plain).length)) :
    Segment leaf lines pc (pc + (Line.remark r :: plain).length) (leaf (.remark r :: plain)) := by
  obtain ⟨hremark, hsits⟩ := hsits
  have hcode : leafCode lines pc = .remark r :: plain := by
    rw [List.length_cons, Nat.add_comm plain.length, ← Nat.add_assoc] at hstops
    rw [leafCode, hremark, takeWhile_of_sits hsits hplain hstops]
    rfl
  refine ⟨Nat.le_add_right _ _, fun s s' h => ?_, fun n s z hz hwalk => ?_⟩
  · rw [← hcode] at h ⊢
    exact .single (.leaf hremark hr h)
  · cases hwalk with
    | zero =>
      simp only [List.length_cons] at hz
      omega
    | @succ n _ y _ hstep hwalk =>
      cases hstep with
      | @leaf _ _ s' r' h hr' hleaf =>
        rw [hcode] at hleaf hwalk
        exact ⟨s', n, Nat.le_succ n, hleaf, hwalk⟩
      | _ => simp_all

end Lines

/-! ## Branches and loops -/

/-- **A branch or loop stands at a place**, with its test behind the condition and its jump behind
the body. -/
structure JunctionAt (lines : List Line) (a c b : Nat) (remark : Remark) (condition body : Piece)
    (index : Nat) (skip leave : Label) : Prop where
  remark : lines[a]? = some (.remark remark)
  start : lines[a + 1]? = some (mark .prior condition index)
  tested : lines[c]? = some (mark .after condition index)
  pop : lines[c + 1]? = some (code (.pop .rax))
  test : lines[c + 2]? = some (code (.binary .test Register.rax.whole Register.rax.whole))
  skip : lines[c + 3]? = some (code (.jumpIfZero skip))
  enter : lines[c + 4]? = some (mark .prior body index)
  leave : lines[b]? = some (code (.jump leave))
  last : lines[b + 1]? = some (mark .after body index)

section Junctions

variable {World : Type} {leaf : LeafMeaning World} {lines : List Line} {a b c e p : Nat}
  {remark : Remark} {condition body piece : Piece} {index index' : Nat} {skip leave : Label}
  {edge : Edge} {s : Machine World}

theorem JunctionAt.of_sits {conditionLines bodyLines : List Line}
    (h : Sits lines a
      (junctionLines remark condition body index skip leave conditionLines bodyLines))
    (hc : c = a + 2 + conditionLines.length) (hb : b = c + 5 + bodyLines.length) :
    JunctionAt lines a c b remark condition body index skip leave ∧
      Sits lines (a + 2) conditionLines ∧ Sits lines (c + 5) bodyLines := by
  subst hc hb
  simp only [junctionLines, testLines, sits_append, List.cons_append, List.nil_append, Sits,
    and_true] at h
  obtain ⟨h₀, h₁, hcondition, h₂, h₃, h₄, h₅, h₆, hbody, h₇, h₈⟩ := h
  exact ⟨⟨h₀, h₁, h₂, h₃, h₄, h₅, h₆, h₇, h₈⟩, hcondition, hbody⟩

namespace JunctionAt

theorem leads_start (h : JunctionAt lines a c b remark condition body index skip leave)
    (hremark : remark.isToken = false) (hle : a + 2 ≤ e) :
    Leads leaf lines a e (a, s) (a + 2, s) :=
  .head (Nat.le_refl a) (Nat.lt_of_succ_lt hle) (.remark h.remark hremark)
    (.single (Nat.le_succ a) hle (.label h.start))

/-- **The test behind the condition** goes to the body or over it. -/
theorem leads_test (h : JunctionAt lines a c b remark condition body index
      (.control edge piece index') leave) (honce : LabelsOnce lines)
    (hp : lines[p]? = some (mark edge piece index')) {a' : Nat} (hac : a' ≤ c) (hce : c + 5 ≤ e)
    (hap : a' ≤ p) (hpe : p < e) :
    Leads leaf lines a' e (c, s) (if s.top = 0 then p + 1 else c + 5, s.popTested) := by
  have hin (k : Nat) (hk : k < 5) : a' ≤ c + k ∧ c + k < e := by omega
  refine .head hac (hin 0 (by decide)).2 (.label h.tested) ?_
  refine .head (hin 1 (by decide)).1 (hin 1 (by decide)).2 (.pop h.pop) ?_
  refine .head (hin 2 (by decide)).1 (hin 2 (by decide)).2 (.test h.test) ?_
  refine .head (hin 3 (by decide)).1 (hin 3 (by decide)).2 (.jumpIfZero honce h.skip hp) ?_
  change Leads leaf lines a' e (if s.popTested.flags.zero = true then p else _, _) _
  rw [s.zero_popTested]
  by_cases htop : s.top = 0
  · simp only [htop, if_true, beq_self_eq_true]
    exact .single hap hpe (.label hp)
  · simp only [htop, if_false, beq_eq_false_iff_ne.mpr htop, Bool.false_eq_true]
    exact .single (hin 4 (by decide)).1 (hin 4 (by decide)).2 (.label h.enter)

/-- **The jump behind the body.** -/
theorem leads_leave (h : JunctionAt lines a c b remark condition body index skip
      (.control edge piece index')) (honce : LabelsOnce lines)
    (hp : lines[p]? = some (mark edge piece index')) {a' : Nat} (hb : a' ≤ b) (hbe : b < e)
    (hap : a' ≤ p) (hpe : p < e) : Leads leaf lines a' e (b, s) (p + 1, s) :=
  .head hb hbe (.jump honce h.leave hp) (.single hap hpe (.label hp))

end JunctionAt

theorem length_junctionLines (remark : Remark) (condition body : Piece) (index : Nat)
    (skip leave : Label) (conditionLines bodyLines : List Line) :
    (junctionLines remark condition body index skip leave conditionLines bodyLines).length =
      conditionLines.length + bodyLines.length + 9 := by
  simp [junctionLines, testLines]
  omega

/-- An alternative that stands at a place. -/
theorem sits_alternativeLines {insteadLines : List Line} :
    Sits lines a (alternativeLines insteadLines index) ↔
      lines[a]? = some (.remark .alternative) ∧
      lines[a + 1]? = some (mark .prior .alternativeBody index) ∧
      Sits lines (a + 2) insteadLines ∧
      lines[a + 2 + insteadLines.length]? = some (mark .after .alternativeBody index) := by
  simp only [alternativeLines, sits_append, List.cons_append, List.nil_append, Sits, and_true]

namespace Segment

variable {conditionLines bodyLines insteadLines : List Line} {o : Nat}
  {C B O : Machine World → Machine World → Prop}

/-- **The lines of a branch without alternative.** -/
theorem branch (honce : LabelsOnce lines)
    (h : Sits lines a (branchLines conditionLines bodyLines none index))
    (hc : c = a + 2 + conditionLines.length) (hb : b = c + 5 + bodyLines.length)
    (hC : Segment leaf lines (a + 2) c C) (hB : Segment leaf lines (c + 5) b B) :
    Segment leaf lines a (a + (branchLines conditionLines bodyLines none index).length)
      (Chooses C B Eq) := by
  obtain ⟨hj, -, -⟩ := JunctionAt.of_sits h hc hb
  have hend : a + (branchLines conditionLines bodyLines none index).length = b + 2 := by
    rw [branchLines, length_junctionLines]
    omega
  have hbody : Segment leaf lines (c + 5) (b + 2) B :=
    hB.leave (by omega) fun s =>
      hj.leads_leave honce hj.last (by omega) (by omega) (by omega) (by omega)
  rw [hend]
  refine .enter (Nat.le_add_right a 2) (fun s => hj.leads_start rfl (by omega)) ?_
  refine .choice hC hbody (.refl (b + 2)) (by omega) (by omega) fun s => ?_
  exact hj.leads_test honce hj.last (by omega) (by omega) (by omega) (by omega)

/-- **The lines of a branch with its alternative.** -/
theorem fork (honce : LabelsOnce lines)
    (h : Sits lines a (branchLines conditionLines bodyLines (some index') index))
    (hp : p = a + (branchLines conditionLines bodyLines (some index') index).length)
    (halternative : Sits lines p (alternativeLines insteadLines index'))
    (hc : c = a + 2 + conditionLines.length) (hb : b = c + 5 + bodyLines.length)
    (ho : o = p + 2 + insteadLines.length) (hC : Segment leaf lines (a + 2) c C)
    (hB : Segment leaf lines (c + 5) b B) (hO : Segment leaf lines (p + 2) o O) :
    Segment leaf lines a (p + (alternativeLines insteadLines index').length)
      (Chooses C B O) := by
  obtain ⟨hj, -, -⟩ := JunctionAt.of_sits h hc hb
  obtain ⟨-, hprior, -, hafter⟩ := sits_alternativeLines.mp halternative
  rw [← ho] at hafter
  rw [branchLines, length_junctionLines] at hp
  have hend : p + (alternativeLines insteadLines index').length = o + 1 := by
    simp [alternativeLines]
    omega
  have hbody : Segment leaf lines (c + 5) (o + 1) B :=
    hB.leave (by omega) fun s =>
      hj.leads_leave honce hafter (by omega) (by omega) (by omega) (by omega)
  have hinstead : Segment leaf lines (p + 2) (o + 1) O :=
    hO.leave (Nat.le_succ o) fun s => .single hO.le (Nat.lt_succ_self o) (.label hafter)
  rw [hend]
  refine .enter (Nat.le_add_right a 2) (fun s => hj.leads_start rfl (by omega)) ?_
  refine .choice hC hbody hinstead (by omega) (by omega) fun s => ?_
  exact hj.leads_test honce hprior (by omega) (by omega) (by omega) (by omega)

/-- **The lines of a loop.** -/
theorem loop (honce : LabelsOnce lines)
    (h : Sits lines a (loopLines conditionLines bodyLines index))
    (hc : c = a + 2 + conditionLines.length) (hb : b = c + 5 + bodyLines.length)
    (hC : Segment leaf lines (a + 2) c C) (hB : Segment leaf lines (c + 5) b B) :
    Segment leaf lines a (a + (loopLines conditionLines bodyLines index).length)
      (Loops C B) := by
  obtain ⟨hj, -, -⟩ := JunctionAt.of_sits h hc hb
  have hend : a + (loopLines conditionLines bodyLines index).length = b + 2 := by
    rw [loopLines, length_junctionLines]
    omega
  -- The way back leads to the label before the condition, which is a part of what is repeated.
  have hcondition : Segment leaf lines (a + 1) c C :=
    .enter (Nat.le_succ _) (fun s => .single (Nat.le_refl _) hC.le (.label hj.start)) hC
  rw [hend]
  refine .enter (Nat.le_succ a) (fun s => .single (Nat.le_refl _) (by dsimp only; omega)
    (.remark hj.remark rfl)) ?_
  refine .iterate hcondition hB (by omega) (by omega) (fun s => ?_) fun s => ?_
  · exact hj.leads_test honce hj.last (by omega) (by omega) (by omega) (by omega)
  · exact .single (by dsimp only; omega) (by dsimp only; omega) (.jump honce hj.leave hj.start)

end Segment

end Junctions

end StackCompiler
