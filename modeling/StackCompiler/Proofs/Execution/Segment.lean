import Mathlib.Logic.Relation
import StackCompiler.Proofs.Execution.Machine

/-!
# Segments of code

A segment is a range of lines that the machine enters at its first line and leaves behind its last
one. What it does in between is a relation of machines. Whoever runs through a segment, to a place
outside, has done what the relation says, and has fewer steps left to go.

* `Walk`: runs of a given length.
* `Leads`: steps that leave the machine no choice.
* `Segment`: a range of lines that does what a relation says.
* `Segment.seq`, **`Segment.choice`**, **`Segment.iterate`**: segments in a row, branches and loops.
-/

namespace StackCompiler

open Relation

/-! ## Runs of a given length -/

/-- So many steps lead from one state to another. -/
inductive Walk {α : Type} (r : α → α → Prop) : Nat → α → α → Prop where
  | zero (x : α) : Walk r 0 x x
  | succ {n : Nat} {x y z : α} (hstep : r x y) (hwalk : Walk r n y z) : Walk r (n + 1) x z

theorem reflTransGen_iff_walk {α : Type} {r : α → α → Prop} {x y : α} :
    ReflTransGen r x y ↔ ∃ n, Walk r n x y := by
  constructor
  · intro h
    induction h using ReflTransGen.head_induction_on with
    | refl => exact ⟨0, .zero y⟩
    | head hstep _ ih =>
      obtain ⟨n, hwalk⟩ := ih
      exact ⟨n + 1, .succ hstep hwalk⟩
  · rintro ⟨n, hwalk⟩
    induction hwalk with
    | zero x => exact .refl
    | succ hstep _ ih => exact .head hstep ih

section Segments

variable {World : Type} {leaf : LeafMeaning World} {lines : List Line}

/-! ## Steps without a choice -/

variable (leaf lines) in
/-- From one state the machine goes to the other, and nowhere else. -/
def Forced (x y : Nat × Machine World) : Prop :=
  Step leaf lines x y ∧ ∀ z, Step leaf lines x z → z = y

variable (leaf lines) in
/-- **The machine has no choice but to go from one state to the other**, and stays in a range until
then. -/
def Leads (a b : Nat) : Nat × Machine World → Nat × Machine World → Prop :=
  TransGen fun x y => (a ≤ x.1 ∧ x.1 < b) ∧ Forced leaf lines x y

namespace Leads

variable {a b : Nat} {x y z : Nat × Machine World}

theorem single (ha : a ≤ x.1) (hb : x.1 < b) (h : Forced leaf lines x y) :
    Leads leaf lines a b x y := TransGen.single ⟨⟨ha, hb⟩, h⟩

theorem head (ha : a ≤ x.1) (hb : x.1 < b) (h : Forced leaf lines x y)
    (hrest : Leads leaf lines a b y z) : Leads leaf lines a b x z :=
  TransGen.head ⟨⟨ha, hb⟩, h⟩ hrest

theorem run (h : Leads leaf lines a b x y) : ReflTransGen (Step leaf lines) x y :=
  TransGen.to_reflTransGen (TransGen.mono (fun _ _ hstep => hstep.2.1) _ _ h)

/-- Whoever walks out of the range has gone this way. -/
theorem walk (h : Leads leaf lines a b x y) {n : Nat} (hz : z.1 < a ∨ b ≤ z.1)
    (hwalk : Walk (Step leaf lines) n x z) : ∃ m < n, Walk (Step leaf lines) m y z := by
  have hfirst {x y : Nat × Machine World} {n : Nat} (hrange : a ≤ x.1 ∧ x.1 < b)
      (hforced : Forced leaf lines x y) (hwalk : Walk (Step leaf lines) n x z) :
      ∃ m < n, Walk (Step leaf lines) m y z := by
    cases hwalk with
    | zero x => omega
    | @succ n x y' z hstep hwalk =>
      obtain rfl := hforced.2 y' hstep
      exact ⟨n, Nat.lt_succ_self n, hwalk⟩
  induction h using TransGen.head_induction_on generalizing n with
  | single hstep => exact hfirst hstep.1 hstep.2 hwalk
  | head hstep _ ih =>
    obtain ⟨m, hm, hwalk⟩ := hfirst hstep.1 hstep.2 hwalk
    obtain ⟨k, hk, hwalk⟩ := ih hwalk
    exact ⟨k, Nat.lt_trans hk hm, hwalk⟩

end Leads

/-! ## Segments -/

variable (leaf lines) in
/-- **A range of lines does what a relation says.** -/
structure Segment (a b : Nat) (R : Machine World → Machine World → Prop) : Prop where
  le : a ≤ b
  /-- What the relation allows can be run. -/
  run : ∀ s s', R s s' → ReflTransGen (Step leaf lines) (a, s) (b, s')
  /-- Whoever walks out of the range has done what the relation says. -/
  walk : ∀ n s z, z.1 < a ∨ b ≤ z.1 → Walk (Step leaf lines) n (a, s) z →
    ∃ s' m, m ≤ n ∧ R s s' ∧ Walk (Step leaf lines) m (b, s') z

/-- What a loop does, given what its condition and body do. -/
inductive Loops (C B : Machine World → Machine World → Prop) :
    Machine World → Machine World → Prop where
  | done {s s₁ : Machine World} (hcondition : C s s₁) (htop : s₁.top = 0) :
      Loops C B s s₁.popTested
  | again {s s₁ s₂ s' : Machine World} (hcondition : C s s₁) (htop : s₁.top ≠ 0)
      (hbody : B s₁.popTested s₂) (hagain : Loops C B s₂ s') : Loops C B s s'

/-- What a branch does, given what its condition, its body and what stands in place of it do. -/
def Chooses (C B O : Machine World → Machine World → Prop) (s s' : Machine World) : Prop :=
  ∃ s₁, C s s₁ ∧ (s₁.top ≠ 0 ∧ B s₁.popTested s' ∨ s₁.top = 0 ∧ O s₁.popTested s')

namespace Segment

variable {a b c e t z : Nat} {R R' C B O : Machine World → Machine World → Prop}

/-- The empty segment. -/
theorem refl (a : Nat) : Segment leaf lines a a Eq where
  le := Nat.le_refl a
  run s s' h := by rw [h]
  walk n s z _ hwalk := ⟨s, n, Nat.le_refl n, rfl, hwalk⟩

theorem congr (h : Segment leaf lines a b R) (hiff : ∀ s s', R s s' ↔ R' s s') :
    Segment leaf lines a b R' := by
  have heq : R = R' := funext fun s => funext fun s' => propext (hiff s s')
  exact heq ▸ h

/-- **Two segments in a row.** -/
theorem seq (h : Segment leaf lines a b R) (h' : Segment leaf lines b c R') :
    Segment leaf lines a c fun s s' => ∃ s₁, R s s₁ ∧ R' s₁ s' where
  le := Nat.le_trans h.le h'.le
  run s s' := by
    rintro ⟨s₁, hR, hR'⟩
    exact (h.run s s₁ hR).trans (h'.run s₁ s' hR')
  walk n s z hz hwalk := by
    have := h.le
    have := h'.le
    obtain ⟨s₁, m, hm, hR, hwalk⟩ := h.walk n s z (by omega) hwalk
    obtain ⟨s', k, hk, hR', hwalk⟩ := h'.walk m s₁ z (by omega) hwalk
    exact ⟨s', k, Nat.le_trans hk hm, ⟨s₁, hR, hR'⟩, hwalk⟩

/-- A segment with a way into it. -/
theorem enter (hb : a ≤ b) (hleads : ∀ s, Leads leaf lines a c (a, s) (b, s))
    (h : Segment leaf lines b c R) : Segment leaf lines a c R where
  le := Nat.le_trans hb h.le
  run s s' hR := (hleads s).run.trans (h.run s s' hR)
  walk n s z hz hwalk := by
    obtain ⟨m, hm, hwalk⟩ := (hleads s).walk hz hwalk
    obtain ⟨s', k, hk, hR, hwalk⟩ := h.walk m s z (by omega) hwalk
    exact ⟨s', k, Nat.le_trans hk (Nat.le_of_lt hm), hR, hwalk⟩

/-- A segment with a way out of it. -/
theorem leave (h : Segment leaf lines a b R) (hc : b ≤ c)
    (hleads : ∀ s, Leads leaf lines a c (b, s) (c, s)) : Segment leaf lines a c R where
  le := Nat.le_trans h.le hc
  run s s' hR := (h.run s s' hR).trans (hleads s').run
  walk n s z hz hwalk := by
    obtain ⟨s', m, hm, hR, hwalk⟩ := h.walk n s z (by omega) hwalk
    obtain ⟨k, hk, hwalk⟩ := (hleads s').walk hz hwalk
    exact ⟨s', k, Nat.le_trans (Nat.le_of_lt hk) hm, hR, hwalk⟩

/-- **A branch**: behind the condition the machine goes to the body, or to what stands in place of
it, and both end at the same line. -/
theorem choice (hC : Segment leaf lines a c C) (hB : Segment leaf lines t e B)
    (hO : Segment leaf lines z e O) (hct : c ≤ t) (hcz : c ≤ z)
    (htest : ∀ s : Machine World,
      Leads leaf lines a e (c, s) (if s.top = 0 then z else t, s.popTested)) :
    Segment leaf lines a e (Chooses C B O) where
  le := Nat.le_trans hC.le (Nat.le_trans hct hB.le)
  run s s' := by
    rintro ⟨s₁, hcondition, ⟨htop, hbody⟩ | ⟨htop, hinstead⟩⟩
    · have hleads := (htest s₁).run
      rw [if_neg htop] at hleads
      exact ((hC.run s s₁ hcondition).trans hleads).trans (hB.run _ _ hbody)
    · have hleads := (htest s₁).run
      rw [if_pos htop] at hleads
      exact ((hC.run s s₁ hcondition).trans hleads).trans (hO.run _ _ hinstead)
  walk n s y hy hwalk := by
    have := hC.le
    have := hB.le
    obtain ⟨s₁, m, hm, hcondition, hwalk⟩ := hC.walk n s y (by omega) hwalk
    obtain ⟨k, hk, hwalk⟩ := (htest s₁).walk hy hwalk
    by_cases htop : s₁.top = 0
    · rw [if_pos htop] at hwalk
      obtain ⟨s', j, hj, hinstead, hwalk⟩ := hO.walk k _ y (by omega) hwalk
      exact ⟨s', j, by omega, ⟨s₁, hcondition, .inr ⟨htop, hinstead⟩⟩, hwalk⟩
    · rw [if_neg htop] at hwalk
      obtain ⟨s', j, hj, hbody, hwalk⟩ := hB.walk k _ y (by omega) hwalk
      exact ⟨s', j, by omega, ⟨s₁, hcondition, .inl ⟨htop, hbody⟩⟩, hwalk⟩

/-- **A loop**: behind the condition the machine leaves, or goes to the body and from there back. -/
theorem iterate (hC : Segment leaf lines a c C) (hB : Segment leaf lines t b B) (hct : c ≤ t)
    (hbe : b ≤ e)
    (htest : ∀ s : Machine World,
      Leads leaf lines a e (c, s) (if s.top = 0 then e else t, s.popTested))
    (hback : ∀ s, Leads leaf lines a e (b, s) (a, s)) :
    Segment leaf lines a e (Loops C B) where
  le := Nat.le_trans hC.le (Nat.le_trans hct (Nat.le_trans hB.le hbe))
  run s s' h := by
    induction h with
    | @done s s₁ hcondition htop =>
      have hleads := (htest s₁).run
      rw [if_pos htop] at hleads
      exact (hC.run s s₁ hcondition).trans hleads
    | @again s s₁ s₂ s' hcondition htop hbody _ ih =>
      have hleads := (htest s₁).run
      rw [if_neg htop] at hleads
      exact ((hC.run s s₁ hcondition).trans hleads).trans
        ((hB.run _ _ hbody).trans ((hback s₂).run.trans ih))
  walk n := by
    -- Every way back to the condition uses up a step.
    induction n using Nat.strongRecOn with
    | ind n ih =>
      intro s y hy hwalk
      have := hC.le
      have := hB.le
      obtain ⟨s₁, m, hm, hcondition, hwalk⟩ := hC.walk n s y (by omega) hwalk
      obtain ⟨k, hk, hwalk⟩ := (htest s₁).walk hy hwalk
      by_cases htop : s₁.top = 0
      · rw [if_pos htop] at hwalk
        exact ⟨_, k, by omega, .done hcondition htop, hwalk⟩
      · rw [if_neg htop] at hwalk
        obtain ⟨s₂, j, hj, hbody, hwalk⟩ := hB.walk k _ y (by omega) hwalk
        obtain ⟨i, hi, hwalk⟩ := (hback s₂).walk hy hwalk
        obtain ⟨s', l, hl, hloops, hwalk⟩ := ih i (by omega) s₂ y hy hwalk
        exact ⟨s', l, by omega, .again hcondition htop hbody hloops, hwalk⟩

end Segment

end Segments

end StackCompiler
