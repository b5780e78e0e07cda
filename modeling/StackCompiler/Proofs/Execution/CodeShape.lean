import StackCompiler.Proofs.Execution.Program
import StackCompiler.Proofs.Symbol.Closure

/-!
# The shape of function bodies

The code of a function body is made of ordinary lines and of calls. It ends with the lines that leave
the function, and jumps lead to labels inside it.

* `Tidy`: code made of ordinary lines and calls.
* `Forest.tidy`: the lines of a forest are tidy.
* `FunctionAt`, `CodeAt`: functions, and places inside them.
* `Linked`, **`UnitTree.linked`**: the functions of a unit.
-/

namespace StackCompiler

open Instruction Register

/-- The lines that leave a function, behind their remark. -/
def leaveLines : List Line :=
  [code (mov rax.whole rsp.whole), code (mov rsp.whole (.cell .returnTop)), code ret]

/-- **Code made of ordinary lines and calls**, up to the end of a function. The function that the
program starts with ends where its code ends. -/
inductive Tidy (callee : Definition → Prop) : Bool → List Line → Prop where
  | halt : Tidy callee true []
  | leave : Tidy callee false leaveLines
  | line {isEntry : Bool} {x : Line} {rest : List Line} (hx : x.isOrdinary = true)
      (hrest : Tidy callee isEntry rest) : Tidy callee isEntry (x :: rest)
  | call {isEntry : Bool} {d : Definition} {rest : List Line} (hd : callee d)
      (hrest : Tidy callee isEntry rest) : Tidy callee isEntry (callLines d ++ rest)

namespace Tidy

variable {callee : Definition → Prop} {isEntry : Bool} {xs ys rest : List Line}

theorem append (hxs : ∀ x ∈ xs, x.isOrdinary = true) (hrest : Tidy callee isEntry rest) :
    Tidy callee isEntry (xs ++ rest) := by
  induction xs with
  | nil => exact hrest
  | cons x xs ih =>
    rw [List.forall_mem_cons] at hxs
    exact .line hxs.1 (ih hxs.2)

/-- Tidy code is code. -/
theorem defines?_label (h : Tidy callee isEntry xs) {x : Line} (hx : x ∈ xs) {l : Label}
    (hl : x.defines? = some l) : x = .label l := by
  induction h with
  | halt => cases hx
  | leave =>
    simp only [leaveLines, List.mem_cons, List.not_mem_nil, or_false] at hx
    rcases hx with rfl | rfl | rfl <;> cases hl
  | @line isEntry y rest hy _ ih =>
    rcases List.mem_cons.mp hx with rfl | hx
    · cases x with
      | label l' =>
        cases hl
        rfl
      | storage l' s => cases hy
      | _ => cases hl
    · exact ih hx
  | @call isEntry d rest _ _ ih =>
    rcases List.mem_append.mp hx with hx | hx
    · simp only [callLines, List.mem_cons, List.not_mem_nil, or_false] at hx
      rcases hx with rfl | rfl | rfl | rfl | rfl <;> cases hl
    · exact ih hx

/-- **What stands at a place of tidy code** is tidy, or the place lies inside the lines of a call or
of the end of a function. -/
theorem split (h : Tidy callee isEntry (xs ++ ys)) :
    Tidy callee isEntry ys ∨
      (∃ d before pre suf rest, callee d ∧ Tidy callee isEntry rest ∧ pre ++ suf = callLines d ∧
        xs = before ++ pre ∧ ys = suf ++ rest ∧ suf ≠ []) ∨
      ∃ pre, pre ++ ys = leaveLines := by
  generalize hzs : xs ++ ys = zs at h
  induction h generalizing xs with
  | halt =>
    obtain ⟨-, rfl⟩ := List.append_eq_nil_iff.mp hzs
    exact .inl .halt
  | leave => exact .inr (.inr ⟨xs, hzs⟩)
  | @line isEntry x rest hx hrest ih =>
    cases xs with
    | nil =>
      obtain rfl : ys = x :: rest := hzs
      exact .inl (.line hx hrest)
    | cons x' xs =>
      obtain ⟨rfl, htail⟩ := List.cons.inj hzs
      rcases ih htail with h | ⟨d, before, pre, suf, rest', hd, hrest', hpre, rfl, hys, hsuf⟩ | h
      · exact .inl h
      · exact .inr (.inl ⟨d, x' :: before, pre, suf, rest', hd, hrest', hpre, rfl, hys, hsuf⟩)
      · exact .inr (.inr h)
  | @call isEntry d rest hd hrest ih =>
    rcases List.append_eq_append_iff.mp hzs with ⟨suf, hsuf, hys⟩ | ⟨xs', hxs, hrest'⟩
    · by_cases hnil : suf = []
      · subst hnil
        rw [List.nil_append] at hys
        exact .inl (hys ▸ hrest)
      · exact .inr (.inl ⟨d, [], xs, suf, rest, hd, hrest, hsuf.symm, rfl, hys, hnil⟩)
    · rcases ih hrest'.symm with h | ⟨d', before, pre, suf, rest', hd', hrest', hpre, hxs', hys, hsuf⟩ | h
      · exact .inl h
      · refine .inr (.inl ⟨d', callLines d ++ before, pre, suf, rest', hd', hrest', hpre, ?_, hys, hsuf⟩)
        rw [hxs, hxs', List.append_assoc]
      · exact .inr (.inr h)

/-- **Code from a label on is tidy.** -/
theorem of_label {l : Label} (h : Tidy callee isEntry (xs ++ .label l :: ys)) :
    Tidy callee isEntry (.label l :: ys) := by
  rcases h.split with h | ⟨d, before, pre, suf, rest, -, -, hpre, -, hys, hsuf⟩ | ⟨pre, hpre⟩
  · exact h
  · obtain ⟨x, suf, rfl⟩ := List.exists_cons_of_ne_nil hsuf
    obtain ⟨rfl, -⟩ := List.cons.inj hys
    have hmem : Line.label l ∈ callLines d := hpre ▸ List.mem_append_right _ (.head _)
    simp [callLines] at hmem
  · have hmem : Line.label l ∈ leaveLines := hpre ▸ List.mem_append_right _ (.head _)
    simp [leaveLines] at hmem

/-- **A call in tidy code** is surrounded by the lines that switch stacks. -/
theorem of_call {l : Label} (h : Tidy callee isEntry (xs ++ code (.call l) :: ys)) :
    ∃ d before rest, callee d ∧ Tidy callee isEntry rest ∧ l = d.label ∧
      xs ++ code (.call l) :: ys = before ++ (callLines d ++ rest) ∧
      xs.length = before.length + 2 := by
  rcases h.split with h | ⟨d, before, pre, suf, rest, hd, hrest, hpre, hxs, hys, hsuf⟩ | ⟨pre, hpre⟩
  · cases h with
    | line hx _ => cases hx
  · obtain ⟨x, suf, rfl⟩ := List.exists_cons_of_ne_nil hsuf
    obtain ⟨rfl, rfl⟩ := List.cons.inj hys
    have hlength : pre.length = 2 ∧ l = d.label := by
      rcases pre with _ | ⟨a, _ | ⟨b, _ | ⟨c, _ | ⟨e, _ | ⟨g, pre⟩⟩⟩⟩⟩ <;> simp_all [callLines]
    refine ⟨d, before, rest, hd, hrest, hlength.2, ?_, ?_⟩
    · rw [← hpre, hxs]
      simp
    · rw [hxs, List.length_append, hlength.1]
  · have hmem : code (.call l) ∈ leaveLines := hpre ▸ List.mem_append_right _ (.head _)
    simp [leaveLines] at hmem

end Tidy

/-! ## Forests -/

/-- The function that a leaf calls. -/
def Leaf.callee? : Leaf → Option DefId
  | .call _ _ _ target => some target
  | _ => none

section Forests

variable {store : Store} {callee : Definition → Prop} {isEntry : Bool} {rest : List Line}

/-- The code of an operator does not name the stack pointer. -/
theorem isOrdinary_operatorCode (operator : Operator) :
    operator.code.all Instruction.isOrdinary = true := by
  cases operator with
  | syscall arguments =>
    revert arguments
    decide
  | _ => rfl

theorem isOrdinary_expressionLines (token : Token) :
    ∀ line ∈ expressionLines token, line.isOrdinary = true := by
  intro line hline
  unfold expressionLines at hline
  split at hline
  · next operator _ =>
    obtain ⟨i, hi, rfl⟩ := List.mem_map.mp hline
    exact List.all_eq_true.mp (isOrdinary_operatorCode operator) i hi
  · unfold literalLines at hline
    split at hline
    · rcases List.mem_pair.mp hline with rfl | rfl <;> rfl
    · cases hline
  · cases hline

theorem Leaf.tidy {l : Leaf} (hcallee : ∀ target d, l.callee? = some target →
      store.def? target = some d → callee d) (hrest : Tidy callee isEntry rest) :
    Tidy callee isEntry (l.lines store ++ rest) := by
  cases l with
  | expression token =>
    exact .line rfl (.append (isOrdinary_expressionLines token) hrest)
  | reference token target =>
    cases hd : store.def? target with
    | none => rwa [lines, hd]
    | some d =>
      rw [lines, hd]
      exact .line rfl (.line rfl hrest)
  | call location id token target =>
    cases hd : store.def? target with
    | none => rwa [lines, hd]
    | some d =>
      rw [lines, hd]
      exact .line rfl (.call (hcallee target d rfl hd) hrest)
  | cast location types => exact hrest
  | assembly token => exact .line rfl (.line rfl hrest)

theorem tidy_junctionLines {remark : Remark} {condition body : Piece} {index : Nat}
    {skip leave : Label} {conditionLines bodyLines : List Line}
    (hcondition : ∀ rest, Tidy callee isEntry rest → Tidy callee isEntry (conditionLines ++ rest))
    (hbody : ∀ rest, Tidy callee isEntry rest → Tidy callee isEntry (bodyLines ++ rest))
    (hrest : Tidy callee isEntry rest) :
    Tidy callee isEntry
      (junctionLines remark condition body index skip leave conditionLines bodyLines ++ rest) := by
  simp only [junctionLines, List.append_assoc]
  refine .append (by simp [Line.isOrdinary]) (hcondition _ (.append ?_ ?_))
  · simp [testLines, Line.isOrdinary, Instruction.isOrdinary, Operand.isStackPointer]
  · refine .append (by simp [Line.isOrdinary]) (hbody _ (.append ?_ hrest))
    simp [Line.isOrdinary, Instruction.isOrdinary]

theorem tidy_alternativeLines {bodyLines : List Line} (index : Nat)
    (hbody : ∀ rest, Tidy callee isEntry rest → Tidy callee isEntry (bodyLines ++ rest))
    (hrest : Tidy callee isEntry rest) :
    Tidy callee isEntry (alternativeLines bodyLines index ++ rest) := by
  rw [alternativeLines, List.append_assoc, List.append_assoc]
  exact .append (by simp [Line.isOrdinary]) (hbody _ (.append (by simp [Line.isOrdinary]) hrest))

/-- **The lines of a forest are tidy**, in front of tidy code. -/
theorem Forest.tidy {F : Forest} (hcallees : ∀ l ∈ F.contents.leaves, ∀ target d,
      l.callee? = some target → store.def? target = some d → callee d)
    (hrest : Tidy callee isEntry rest) : Tidy callee isEntry (F.lines store ++ rest) := by
  induction F generalizing rest with
  | nil => exact hrest
  | leaf id l rest ih =>
    simp only [contents, Contents.leaves_append, List.forall_mem_append] at hcallees
    rw [lines, List.append_assoc]
    exact Leaf.tidy (hcallees.1 l (.head _)) (ih hcallees.2 hrest)
  | scope head inside rest ihi ihr =>
    simp only [contents, ScopeHead.node, Contents.leaves_append, List.forall_mem_append] at hcallees
    rw [lines, List.append_assoc]
    exact ihi hcallees.1.1 (ihr hcallees.2 hrest)
  | branch j c condition b body rest ihc ihb ihr =>
    simp only [contents, ScopeHead.node, Junction.branch, Contents.leaves_append,
      List.forall_mem_append] at hcallees
    obtain ⟨⟨⟨⟨-, hc, -⟩, hb, -⟩, -⟩, hr⟩ := hcallees
    rw [lines, List.append_assoc]
    exact tidy_junctionLines (fun _ => ihc hc) (fun _ => ihb hb) (ihr hr hrest)
  | fork j c condition b body a o otherwise rest ihc ihb iho ihr =>
    simp only [contents, ScopeHead.node, Junction.branch, Junction.alternative,
      Contents.leaves_append, List.forall_mem_append] at hcallees
    obtain ⟨⟨⟨⟨⟨-, hc, -⟩, hb, -⟩, -⟩, ⟨-, ho, -⟩, -⟩, hr⟩ := hcallees
    rw [lines, List.append_assoc, List.append_assoc]
    exact tidy_junctionLines (fun _ => ihc hc) (fun _ => ihb hb)
      (tidy_alternativeLines a.index (fun _ => iho ho) (ihr hr hrest))
  | loop j c condition b body rest ihc ihb ihr =>
    simp only [contents, ScopeHead.node, Junction.loop, Contents.leaves_append,
      List.forall_mem_append] at hcallees
    obtain ⟨⟨⟨⟨-, hc, -⟩, hb, -⟩, -⟩, hr⟩ := hcallees
    rw [lines, List.append_assoc]
    exact tidy_junctionLines (fun _ => ihc hc) (fun _ => ihb hb) (ihr hr hrest)

theorem tidy_epilogue (callee : Definition → Prop) (isEntry : Bool) :
    Tidy callee isEntry (epilogue isEntry) := by
  cases isEntry with
  | false => exact .line rfl .leave
  | true => exact .line rfl (.line rfl (.line rfl (.line rfl .halt)))

end Forests

/-! ## Functions -/

/-- **A function stands at a place.** Its body is tidy, its jumps stay in it, and no code follows. -/
structure FunctionAt (callee : Definition → Prop) (lines : List Line) (d : Definition)
    (isEntry : Bool) (start : Nat) (body : List Line) : Prop where
  sits : Sits lines start (prologue d isEntry ++ (body ++ epilogue isEntry))
  behind : lines[start + 4 + (body ++ epilogue isEntry).length]? = some .blank
  tidy : Tidy callee isEntry (body ++ epilogue isEntry)
  jumps : ∀ line ∈ body, ∀ l, line.goesTo? = some l → l ∈ definedLabels body

/-- **Code of a function stands at a place**, up to the end of the function. -/
def CodeAt (callee : Definition → Prop) (lines : List Line) (isEntry : Bool) (pc : Nat)
    (rest : List Line) : Prop :=
  ∃ d start body before, FunctionAt callee lines d isEntry start body ∧
    body ++ epilogue isEntry = before ++ rest ∧ pc = start + 4 + before.length ∧
    Tidy callee isEntry rest

section Functions

variable {callee : Definition → Prop} {lines : List Line} {isEntry : Bool} {pc : Nat}
  {xs rest : List Line}

theorem length_prologue (d : Definition) (isEntry : Bool) : (prologue d isEntry).length = 4 := by
  cases isEntry <;> rfl

namespace FunctionAt

variable {d : Definition} {start : Nat} {body : List Line}

/-- The body of a function. -/
theorem codeAt (h : FunctionAt callee lines d isEntry start body) :
    CodeAt callee lines isEntry (start + 4) (body ++ epilogue isEntry) :=
  ⟨d, start, body, [], h, rfl, rfl, h.tidy⟩

theorem prologue (h : FunctionAt callee lines d isEntry start body) :
    Sits lines start (prologue d isEntry) := (sits_append.mp h.sits).1

theorem label (h : FunctionAt callee lines d isEntry start body) :
    lines[start + 1]? = some (.label d.label) := by
  have hsits := h.prologue
  cases isEntry with
  | false => exact hsits.2.1
  | true => exact hsits.2.1

end FunctionAt

namespace CodeAt

theorem tidy (h : CodeAt callee lines isEntry pc rest) : Tidy callee isEntry rest := by
  obtain ⟨d, start, body, before, -, -, -, htidy⟩ := h
  exact htidy

theorem sits (h : CodeAt callee lines isEntry pc rest) : Sits lines pc rest := by
  obtain ⟨d, start, body, before, hfunction, hbody, rfl, -⟩ := h
  have hsits := (sits_append.mp hfunction.sits).2
  rw [length_prologue, hbody, sits_append] at hsits
  exact hsits.2

/-- Behind the code of a function there is none. -/
theorem behind (h : CodeAt callee lines isEntry pc []) : lines[pc]? = some .blank := by
  obtain ⟨d, start, body, before, hfunction, hbody, rfl, -⟩ := h
  rw [List.append_nil] at hbody
  exact hbody ▸ hfunction.behind

/-- Code further on. -/
theorem skip (h : CodeAt callee lines isEntry pc (xs ++ rest)) (hrest : Tidy callee isEntry rest) :
    CodeAt callee lines isEntry (pc + xs.length) rest := by
  obtain ⟨d, start, body, before, hfunction, hbody, rfl, -⟩ := h
  refine ⟨d, start, body, before ++ xs, hfunction, ?_, ?_, hrest⟩
  · rw [hbody, List.append_assoc]
  · rw [List.length_append]
    omega

/-- **Jumps lead to code of the same function.** -/
theorem jump {x : Line} {l : Label} {target : Nat} (honce : SymbolsOnce lines)
    (h : CodeAt callee lines isEntry pc (x :: rest)) (hl : x.goesTo? = some l)
    (htarget : lines[target]? = some (.label l)) :
    ∃ rest', CodeAt callee lines isEntry target rest' := by
  obtain ⟨d, start, body, before, hfunction, hbody, -, -⟩ := h
  have hmem : x ∈ body := by
    have hx : x ∈ body ++ epilogue isEntry := hbody ▸ List.mem_append_right _ (.head _)
    rcases List.mem_append.mp hx with hx | hx
    · exact hx
    · cases isEntry <;> simp [epilogue] at hx <;> rcases hx with rfl | rfl | rfl | rfl <;> cases hl
  obtain ⟨y, hy, hdefines⟩ := List.mem_filterMap.mp (hfunction.jumps x hmem l hl)
  obtain rfl := hfunction.tidy.defines?_label (List.mem_append_left _ hy) hdefines
  obtain ⟨front, back, hsplit⟩ := List.append_of_mem hy
  have hcode : body ++ epilogue isEntry = front ++ .label l :: (back ++ epilogue isEntry) := by
    rw [hsplit]
    simp
  have htidy := hfunction.tidy
  rw [hcode] at htidy
  have hat : CodeAt callee lines isEntry (start + 4 + front.length) (.label l :: (back ++ epilogue isEntry)) :=
    ⟨d, start, body, front, hfunction, hcode, rfl, htidy.of_label⟩
  rw [honce target _ l htarget hat.sits.1]
  exact ⟨_, hat⟩

end CodeAt

end Functions

/-! ## Units -/

/-- **All functions that are called stand at their places.** -/
structure Linked (callee : Definition → Prop) (lines : List Line) : Prop where
  once : SymbolsOnce lines
  functions : ∀ d, callee d → ∃ start body, FunctionAt callee lines d d.isEntry start body

/-- The functions of a unit that are lowered. -/
def LoweredFunction (options : EmitOptions) (store : Store) (unit : List DefId) (chunks : List Chunk)
    (d : Definition) : Prop :=
  d.isFunction = true ∧ ∃ chunk, (d, chunk) ∈ keptChunks options store unit chunks

/-- Labels that are listed once stand at one place. -/
theorem symbolsOnce_of_nodup {lines : List Line} (h : (definedLabels lines).Nodup) :
    SymbolsOnce lines := by
  have hpairs := List.pairwise_iff_getElem.mp (List.pairwise_filterMap.mp h)
  have hlt : ∀ (i j : Nat) (l : Label), lines[i]? = some (.label l) →
      lines[j]? = some (.label l) → ¬ i < j := by
    intro i j l hi hj hlt
    obtain ⟨hi, hline⟩ := List.getElem?_eq_some_iff.mp hi
    obtain ⟨hj, hline'⟩ := List.getElem?_eq_some_iff.mp hj
    exact hpairs i j hi hj hlt l (by rw [hline]; rfl) l (by rw [hline']; rfl) rfl
  intro i j l hi hj
  have := hlt i j l hi hj
  have := hlt j i l hj hi
  omega

namespace UnitTree

variable {before after : Store} {unit : List DefId} {chunks : List Chunk} (options : EmitOptions)

/-- **A function of a unit stands among its lines.** -/
theorem functionAt (h : UnitTree before after unit chunks) (husage : UnitUsage after unit chunks)
    {q : Definition × Chunk} (hq : q ∈ keptChunks options after unit chunks) {f : Function}
    (hf : q.1.body = .function f) :
    ∃ start body, FunctionAt (LoweredFunction options after unit chunks)
        (unitLines options after unit chunks) q.1 f.isEntry start body ∧
      (lowerBlock after (emitLevels after {}) f.body).Gives body () ∧
      q.2.ownLines after q.1 = prologue q.1 f.isEntry ++ (body ++ epilogue f.isEntry) := by
  obtain ⟨i, hi, -, -⟩ := h.keptChunk_at options hq
  obtain ⟨head, inside, hbody, hhead, hnode, hstored, hleaves, hheight⟩ :=
    h.function_tree options hq hf
  have hcallees : ∀ l ∈ inside.contents.leaves, ∀ target d, l.callee? = some target →
      after.def? target = some d → LoweredFunction options after unit chunks d := by
    intro l hl target d htarget hd
    obtain ⟨hmem, hlowers⟩ := hleaves l hl
    cases l with
    | call location callee token target' =>
      cases htarget
      obtain ⟨d', hd', hfunction⟩ := hlowers
      rw [hd] at hd'
      cases hd'
      exact ⟨hfunction, h.target_kept options husage hi hmem rfl hd⟩
    | _ => cases htarget
  obtain ⟨first, last, hsplit⟩ := List.append_of_mem hq
  obtain ⟨hsits, hover, -⟩ := sits_append.mp (sits_ownLines hsplit)
  rw [Chunk.ownLines, hf, hbody] at hsits hover
  rw [List.length_append, length_prologue, ← Nat.add_assoc] at hover
  refine ⟨_, inside.lines after, ⟨hsits, hover, Forest.tidy hcallees (tidy_epilogue _ _), ?_⟩, ?_, ?_⟩
  · intro line hline l hl
    have hresolves : line.Resolves (· ∈ definedLabels (inside.lines after)) fun _ => True :=
      Forest.resolves (fun l hl => hl) trivial (fun _ _ _ _ _ _ => trivial) line hline
    exact hresolves.1 l hl
  · rw [show emitLevels after {} = after.blocks.size + 1 from Nat.mul_one _, hhead]
    exact (getBlock_gives hnode).silent_bind
      (Forest.gives hstored (fun l hl => (hleaves l hl).2) hheight)
  · rw [Chunk.ownLines, hf, hbody]

/-- **The functions of a unit stand at their places.** -/
theorem linked (h : UnitTree before after unit chunks) (husage : UnitUsage after unit chunks) :
    Linked (LoweredFunction options after unit chunks) (unitLines options after unit chunks) := by
  refine ⟨symbolsOnce_of_nodup (h.nodup_definedLabels options husage), fun d hd => ?_⟩
  obtain ⟨hfunction, chunk, hq⟩ := hd
  obtain ⟨f, hf⟩ : ∃ f, d.body = .function f := by
    unfold Definition.isFunction at hfunction
    split at hfunction
    · next f hf => exact ⟨f, hf⟩
    · cases hfunction
  obtain ⟨start, body, hat, -⟩ := h.functionAt options husage hq hf
  rw [Definition.isEntry, hf]
  exact ⟨start, body, hat⟩

/-- **Calls stand in functions**, in the midst of their lines. -/
theorem callSite (h : UnitTree before after unit chunks) (husage : UnitUsage after unit chunks)
    {c : Nat} {l : Label} (hc : (unitLines options after unit chunks)[c + 2]? = some (code (.call l))) :
    ∃ d isEntry rest, LoweredFunction options after unit chunks d ∧ l = d.label ∧
      CodeAt (LoweredFunction options after unit chunks) (unitLines options after unit chunks) isEntry
        c (callLines d ++ rest) ∧ Tidy (LoweredFunction options after unit chunks) isEntry rest := by
  have huses : (code (.call l)).uses ≠ [] := List.cons_ne_nil l []
  obtain ⟨q, hq, start, k, hsits, hk, hplace⟩ := exists_own_of_uses hc huses
  obtain ⟨f, hf⟩ := Chunk.isFunction_of_uses (List.mem_of_getElem? hk) huses
  obtain ⟨start', body, hat, -, hown⟩ := h.functionAt options husage hq hf
  rw [hown] at hsits hk
  -- The function stands at one place only, since its label does.
  have hlabel : (unitLines options after unit chunks)[start + 1]? = some (.label q.1.label) := by
    refine hsits.getElem? ?_
    cases f.isEntry <;> rfl
  obtain rfl : start = start' := by
    have := (h.linked options husage).once _ _ _ hlabel hat.label
    omega
  rw [List.getElem?_append, length_prologue] at hk
  split at hk
  · next hlt =>
    have hmem := List.mem_of_getElem? hk
    cases hentry : f.isEntry <;> simp [prologue, hentry] at hmem
  · next hge =>
    obtain ⟨hlt, hget⟩ := List.getElem?_eq_some_iff.mp hk
    have hsplit := (List.take_append_drop (k - 4) (body ++ epilogue f.isEntry)).symm
    rw [List.drop_eq_getElem_cons hlt, hget] at hsplit
    have htidy := hat.tidy
    rw [hsplit] at htidy
    obtain ⟨d, first, rest, hd, hrest, hl, hcode, hlength⟩ := htidy.of_call
    rw [List.length_take] at hlength
    refine ⟨d, f.isEntry, rest, hd, hl, ⟨q.1, start, body, first, hat, ?_, ?_, ?_⟩, hrest⟩
    · rw [hsplit, hcode]
    · omega
    · exact .call hd hrest

/-- **What is called is lowered.** -/
theorem called (h : UnitTree before after unit chunks) (husage : UnitUsage after unit chunks)
    {id : DefId} {d : Definition} (hid : id ∈ unit) (hd : after.def? id = some d) {c : Nat}
    (hcall : Sits (unitLines options after unit chunks) c (callLines d)) :
    LoweredFunction options after unit chunks d ∧ ∃ isEntry rest,
      CodeAt (LoweredFunction options after unit chunks) (unitLines options after unit chunks) isEntry
        c (callLines d ++ rest) := by
  obtain ⟨d', isEntry, rest, hlowered, hlabel, hcode, -⟩ := h.callSite options husage hcall.2.2.1
  obtain rfl : d = d' := by
    obtain ⟨-, chunk, hq⟩ := hlowered
    obtain ⟨i, hi⟩ := List.mem_iff_getElem?.mp hid
    obtain ⟨j, id', hj, -, hd', -⟩ := mem_keptChunks.mp hq
    obtain rfl := h.eq_of_label husage hi hj hd hd' hlabel
    rw [hi] at hj
    cases hj
    exact Option.some.inj (hd.symm.trans hd')
  exact ⟨hlowered, isEntry, rest, hcode⟩

end UnitTree

/-- The return stack stands behind all definitions. -/
theorem reserves_of_unitLines {World : Type} {P : Platform World} {options : EmitOptions}
    {store : Store} {unit : List DefId} {chunks : List Chunk}
    (hP : P.Fits (unitLines options store unit chunks)) : P.Reserves := by
  have hsits := sits_of_append (preamble options.entry ++ definitionLines options store unit chunks)
    postamble []
  rw [List.append_nil, List.append_assoc] at hsits
  obtain ⟨-, htop, hstack, hend, -⟩ := hsits
  exact Platform.reserves_of_fits hP htop hstack hend

end StackCompiler
