import StackCompiler.Assembly.Label

/-!
# The spelling of labels

Labels that the compiler makes up consist of a stem without digits and, most of them, a number. The
stems of different kinds of labels differ, so a spelling stands for one label only.

* `Label.isEntry`: labels that are taken from the source.
* `Label.stem`, `Label.number?`: the parts of a spelling.
* **`Label.eq_of_name`**: no two made up labels are spelled alike.
-/

namespace StackCompiler

namespace Label

/-- Is it the name of the function the program starts with? -/
def isEntry : Label → Bool
  | .entry _ => true
  | _ => false

/-! ## Parts of a spelling -/

/-- What stands before the number of a label. -/
def stem : Label → String
  | .entry name => name
  | .function _ => "func_"
  | .memory _ => "mem_"
  | .string _ => "str_"
  | .control edge piece _ => edge.text ++ "_" ++ piece.text ++ "_"
  | .returnTop => "ret_stack_rsp"
  | .returnStack => "ret_stack"
  | .returnEnd => "ret_stack_end"

/-- The number of a label. -/
def number? : Label → Option Nat
  | .function index | .memory index | .string index | .control _ _ index => some index
  | .entry _ | .returnTop | .returnStack | .returnEnd => none

/-- The characters of the number of a label. -/
def digits (l : Label) : List Char := l.number?.elim [] (Nat.toDigits 10)

theorem toList_name (l : Label) : l.name.toList = l.stem.toList ++ l.digits := by
  cases l <;> simp [name, stem, digits, number?, Nat.repr_eq_ofList_toDigits]

theorem isDigit_digits (l : Label) : ∀ c ∈ l.digits, c.isDigit = true := by
  intro c hc
  unfold digits at hc
  cases hnumber : l.number? with
  | none => simp [hnumber] at hc
  | some n =>
    rw [hnumber] at hc
    exact Nat.isDigit_of_mem_toDigits (by decide) (by decide) hc

theorem number?_eq_of_digits {l l' : Label} (h : l.digits = l'.digits) :
    l.number? = l'.number? := by
  have hne (n : Nat) : Nat.toDigits 10 n ≠ [] := List.ne_nil_of_length_pos Nat.length_toDigits_pos
  unfold digits at h
  cases hl : l.number? with
  | none =>
    cases hl' : l'.number? with
    | none => rfl
    | some n' =>
      rw [hl, hl'] at h
      exact absurd h.symm (hne n')
  | some n =>
    cases hl' : l'.number? with
    | none =>
      rw [hl, hl'] at h
      exact absurd h (hne n)
    | some n' =>
      rw [hl, hl'] at h
      have hvalue := congrArg (fun cs => Nat.ofDigitChars 10 cs 0) h
      simp only [Option.elim_some, Nat.ofDigitChars_ten_toDigits] at hvalue
      rw [hvalue]

/-! ## Stems -/

/-- The label of the same kind with another number. -/
def withNumber : Label → Nat → Label
  | .function _, n => .function n
  | .memory _, n => .memory n
  | .string _, n => .string n
  | .control edge piece _, n => .control edge piece n
  | l, _ => l

/-- One label of every kind that the compiler makes up. -/
def templates : List Label :=
  [.function 0, .memory 0, .string 0, .returnTop, .returnStack, .returnEnd] ++
    [Edge.prior, Edge.after].flatMap fun edge =>
      [Piece.branchCondition, .branchBody, .alternativeBody, .loopCondition, .loopBody].map
        fun piece => .control edge piece 0

theorem withNumber_mem_templates {l : Label} (h : l.isEntry = false) :
    l.withNumber 0 ∈ templates := by
  cases l with
  | entry name => cases h
  | control edge piece index =>
    change Label.control edge piece 0 ∈ templates
    cases edge <;> cases piece <;> decide
  | function index => exact .head _
  | memory index => exact .tail _ (.head _)
  | string index => exact .tail _ (.tail _ (.head _))
  | returnTop => decide
  | returnStack => decide
  | returnEnd => decide

theorem stem_withNumber (l : Label) (n : Nat) : (l.withNumber n).stem = l.stem := by
  cases l <;> rfl

/-- A stem contains no digit. -/
theorem isDigit_stem_templates :
    (templates.all fun l => l.stem.toList.all fun c => !c.isDigit) = true := by
  decide +kernel

/-- The stems of different kinds differ. -/
theorem stem_templates_inj :
    (templates.all fun a => templates.all fun b => a.stem != b.stem || decide (a = b)) = true := by
  decide +kernel

theorem isDigit_stem {l : Label} (h : l.isEntry = false) : ∀ c ∈ l.stem.toList, c.isDigit = false := by
  have hall := List.all_eq_true.mp isDigit_stem_templates _ (withNumber_mem_templates h)
  rw [stem_withNumber, List.all_eq_true] at hall
  intro c hc
  simpa using hall c hc

theorem eq_of_withNumber {l l' : Label} (h : l.withNumber 0 = l'.withNumber 0)
    (hnumber : l.number? = l'.number?) : l = l' := by
  cases l <;> cases l' <;> simp_all [withNumber, number?]

/-! ## Spellings -/

theorem takeWhile_name {l : Label} (h : l.isEntry = false) :
    l.name.toList.takeWhile (fun c => !c.isDigit) = l.stem.toList := by
  have hdigits : l.digits.takeWhile (fun c => !c.isDigit) = [] := by
    cases hd : l.digits with
    | nil => rfl
    | cons c rest => simp [l.isDigit_digits c (hd ▸ .head _)]
  rw [toList_name, List.takeWhile_append_of_pos fun c hc => by simp [isDigit_stem h c hc], hdigits,
    List.append_nil]

/-- **No two made up labels are spelled alike.** -/
theorem eq_of_name {l l' : Label} (hl : l.isEntry = false) (hl' : l'.isEntry = false)
    (h : l.name = l'.name) : l = l' := by
  have hstem : l.stem.toList = l'.stem.toList := by
    rw [← takeWhile_name hl, ← takeWhile_name hl', h]
  have hdigits : l.digits = l'.digits := by
    have hname := congrArg String.toList h
    rw [toList_name, toList_name, hstem] at hname
    exact List.append_cancel_left hname
  have hkind : l.withNumber 0 = l'.withNumber 0 := by
    have hpair := List.all_eq_true.mp (List.all_eq_true.mp stem_templates_inj _
      (withNumber_mem_templates hl)) _ (withNumber_mem_templates hl')
    rw [stem_withNumber, stem_withNumber, String.toList_inj.mp hstem] at hpair
    simpa using hpair
  exact eq_of_withNumber hkind (number?_eq_of_digits hdigits)

end Label

end StackCompiler
