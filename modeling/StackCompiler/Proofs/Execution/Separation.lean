import StackCompiler.Proofs.Execution.ReturnStack

/-!
# The two stacks

From the start of a program on, the data stack stays outside the return stack, as long as the
function that the program starts with is not called: this function does not take over the data stack
of its caller.

* `Orderly`: steps that move neither stack into the other.
* `StacksApart`: what is kept of the two stacks.
* **`stacksApart_of_parseChars`**: programs keep their stacks apart.
* `entry_call_in_buffer`: a program that calls itself.
-/

namespace StackCompiler

open Instruction Register Relation

def Line.usesStack : Line → Bool
  | .instruction i => i.usesStack
  | _ => false

section Steps

variable {World : Type}

/-- **An orderly step.** -/
structure Orderly (P : Platform World) (lines : List Line) (x y : Config World) : Prop where
  exec : Exec P lines x y
  /-- Only lines that switch stacks write the memory of the return stack. -/
  writes : ∀ line, lines[x.line]? = some line → line.isOrdinary = true →
    P.SameReserved x.machine y.machine
  /-- Pushes and pops do not cross the ends of the return stack. -/
  crosses : ∀ line, lines[x.line]? = some line → line.usesStack = true →
    (P.InBuffer (y.machine.registers .rsp) ↔ P.InBuffer (x.machine.registers .rsp))
  /-- The return stack has room. -/
  nesting : y.opened.length ≤ returnStackSize / 8

/-- An orderly step that does not call the function that the program starts with. -/
structure OrderlyInside (P : Platform World) (lines : List Line) (x y : Config World) :
    Prop extends Orderly P lines x y where
  entry : ∀ name, lines[x.line]? ≠ some (code (.call (.entry name)))

/-- **The stacks are apart**, all along from the given state on. -/
structure StacksApart (P : Platform World) (lines : List Line) (functions : Definition → Prop)
    (x₀ : Config World) : Prop where
  /-- Outside of switches the data stack lies outside the return stack. -/
  outside : ∀ x, ReflTransGen (OrderlyInside P lines) x₀ x → ¬ OnSwitch lines x.line →
    ¬ P.InBuffer (x.machine.registers .rsp)
  /-- Functions take over the data stack of their callers. -/
  adopts : ∀ x d, ReflTransGen (OrderlyInside P lines) x₀ x → functions d → d.isEntry = false →
    Sits lines x.line (callLines d) → x.opened.length < returnStackSize / 8 →
    ∃ start t, Sits lines start (prologue d false) ∧
      ReflTransGen (Passage P lines) x ⟨start + 4, t, (x.line + 3) :: x.opened⟩ ∧
      t.registers .rsp = x.machine.registers .rsp
  /-- The function that the program starts with takes the return stack for its data stack. -/
  strays : ∀ x d, ReflTransGen (OrderlyInside P lines) x₀ x → functions d → d.isEntry = true →
    Sits lines x.line (callLines d) → x.opened.length < returnStackSize / 8 →
    ∃ start t, Sits lines start (prologue d true) ∧
      ReflTransGen (Passage P lines) x ⟨start + 4, t, (x.line + 3) :: x.opened⟩ ∧
      P.InBuffer (t.registers .rsp)

variable {P : Platform World} {lines : List Line} {callee : Definition → Prop} {d : Definition}
  {start c n : Nat} {body : List Line} {s : Machine World} {o : List Nat}

/-- **Ordinary steps stay outside the return stack.** -/
theorem Orderly.outside {x y : Config World} (h : Orderly P lines x y)
    (hkernel : ∀ s s', P.kernel s s' → s'.registers .rsp = s.registers .rsp) {line : Line}
    (hline : lines[x.line]? = some line) (hordinary : line.isOrdinary = true)
    (hverbatim : ∀ text, line ≠ .verbatim text) (hx : ¬ P.InBuffer (x.machine.registers .rsp)) :
    ¬ P.InBuffer (y.machine.registers .rsp) := by
  have hcrosses := h.crosses
  -- Lines that neither push nor pop do not name the stack pointer.
  cases h.exec with
  | @plain pc s s' o i spare hplain hexec =>
    by_cases hstack : i.usesStack = true
    · rwa [hcrosses _ hplain hstack]
    · obtain rfl := Option.some.inj (hplain.symm.trans hline)
      have hkeep := registers_exec_rsp hexec hordinary (Bool.eq_false_iff.mpr hstack)
      rwa [hkeep]
  | syscall _ hrun => rwa [hkernel _ _ hrun]
  | verbatim htext _ => exact absurd (Option.some.inj (hline.symm.trans htext)) (hverbatim _)
  | call hcall _ =>
    obtain rfl := Option.some.inj (hcall.symm.trans hline)
    cases hordinary
  | ret hret _ _ _ =>
    obtain rfl := Option.some.inj (hret.symm.trans hline)
    cases hordinary
  | label _ => exact hx
  | remark _ => exact hx
  | jump _ _ => exact hx
  | jumpIfZero _ _ _ => exact hx
  | noJump _ _ => exact hx

def orderlySteps (hP : P.Fits lines) (hreserves : P.Reserves) (hlinked : Linked callee lines)
    (hkernel : ∀ s s', P.kernel s s' → s'.registers .rsp = s.registers .rsp)
    (hasm : ∀ text, .verbatim text ∉ lines) : Watch World where
  P := P
  lines := lines
  callee := callee
  fits := hP
  reserves := hreserves
  linked := hlinked
  base := 0
  whole := true
  area := fun a => ¬ P.InBuffer a
  Step := OrderlyInside P lines
  careful := fun _ _ h =>
    { exec := h.exec
      writes := h.writes
      stays := fun text htext => absurd (List.mem_of_getElem? htext) (hasm text)
      entry := h.entry
      nesting := (Nat.zero_add _).symm ▸ h.nesting }
  returns := nofun
  area_of_ordinary := fun _ _ _ h hline hordinary =>
    h.toOrderly.outside hkernel hline hordinary
      fun text htext => hasm text (htext ▸ List.mem_of_getElem? hline)

/-! ## Calls of the first function -/

structure Course (P : Platform World) (lines : List Line) (x y : Config World) : Prop where
  passage : Passage P lines x y
  orderly : Orderly P lines x y

theorem Course.of_passage {x y : Config World} {line : Line} (h : Passage P lines x y)
    (hline : lines[x.line]? = some line)
    (hordinary : line.isOrdinary = true → y.machine.memory = x.machine.memory)
    (hstack : line.usesStack = false)
    (hnesting : y.opened.length ≤ returnStackSize / 8) : Course P lines x y where
  passage := h
  orderly := by
    refine ⟨h.sure.1, fun line' hline' hordinary' => ?_, fun line' hline' hstack' => ?_, hnesting⟩
    · obtain rfl := Option.some.inj (hline.symm.trans hline')
      exact fun a _ => congrFun (hordinary hordinary') a
    · obtain rfl := Option.some.inj (hline.symm.trans hline')
      exact absurd hstack' (Bool.eq_false_iff.mp hstack)

/-- **From the first line of the program to its body.** -/
theorem courses_start (hP : P.Reserves) (hat : Sits lines start (prologue d true))
    (hroom : o.length ≤ 512) :
    ReflTransGen (Course P lines) ⟨start + 1, s, o⟩ ⟨start + 4, P.started s, o⟩ := by
  obtain ⟨-, hlabel, hload, hstore, -⟩ := hat
  refine .head (.of_passage (.label hlabel) hlabel (fun _ => rfl) rfl hroom) ?_
  refine .head (.of_passage (.mov_address hload) hload (fun _ => rfl) rfl hroom) ?_
  exact .single (.of_passage (.mov_to_top hP hstore) hstore nofun rfl hroom)

/-- **From a call to the body of the first function.** -/
theorem courses_call_entry (hP : P.Reserves) (honce : SymbolsOnce lines)
    (hat : Sits lines start (prologue d true)) (hcall : Sits lines c (callLines d))
    (hroom : o.length < 512) (hn : n < 512) (hslot : s.load (P.address .returnTop) = P.mark n) :
    ReflTransGen (Course P lines) ⟨c, s, o⟩
      ⟨start + 4, P.started ((P.toReturnStack s).push (P.place (c + 3))), (c + 3) :: o⟩ := by
  obtain ⟨hmov, hswitch, hcall, -⟩ := hcall
  have hrsp : (P.toReturnStack s).registers .rsp = P.mark n :=
    registers_toReturnStack_rsp.trans hslot
  have hless := Nat.le_of_lt hroom
  refine .head (.of_passage (.mov_register hmov) hmov nofun rfl hless) ?_
  refine .head (.of_passage (.mov_cell hswitch) hswitch nofun rfl hless) ?_
  refine .head (.of_passage (.call hP honce hcall hat.2.1 hn hrsp) hcall nofun rfl hroom) ?_
  exact courses_start hP hat hroom

/-- The first function goes on with the return stack if it is called. -/
theorem inBuffer_call_entry (hP : P.Reserves) (hn : n < 512)
    (hslot : s.load (P.address .returnTop) = P.mark n) (v : BitVec 64) :
    P.InBuffer ((P.started ((P.toReturnStack s).push v)).registers .rsp) := by
  rw [registers_started_rsp, push_toReturnStack hP hn hslot, Machine.registers_store,
    Machine.registers_setRegister_self, Width.setPart_w64]
  apply hP.inBuffer_of_mark hn
  simp

/-! ## Programs -/

theorem not_onSwitch_call (h : Sits lines c (callLines d)) : ¬ OnSwitch lines c := by
  rintro ⟨line, hline, hswitch⟩
  obtain rfl := Option.some.inj (h.1.symm.trans hline)
  cases hswitch

/-- **Programs whose functions stand at their places keep their stacks apart.** -/
theorem stacksApart (hP : P.Fits lines) (hreserves : P.Reserves) (hlinked : Linked callee lines)
    (hkernel : ∀ s s', P.kernel s s' → s'.registers .rsp = s.registers .rsp)
    (hasm : ∀ text, .verbatim text ∉ lines) (hat : FunctionAt callee lines d true start body)
    (hs : ¬ P.InBuffer (s.registers .rsp)) {functions : Definition → Prop}
    (hfunctions : ∀ d c, functions d → Sits lines c (callLines d) → callee d) :
    StacksApart P lines functions ⟨start + 1, s, []⟩ := by
  let S := orderlySteps hP hreserves hlinked hkernel hasm
  have hstart : S.Rests ⟨start + 4, P.started s, []⟩ := by
    refine ⟨⟨true, _, hat.codeAt, fun _ => rfl⟩, Nat.zero_le _, load_started_top, trivial, ?_⟩
    show ¬ P.InBuffer ((P.started s).registers .rsp)
    rwa [registers_started_rsp]
  -- All that is said about a state holds of states at rest only.
  have hrests {x : Config World} (hrun : ReflTransGen (OrderlyInside P lines) ⟨start + 1, s, []⟩ x)
      (hx : ¬ OnSwitch lines x.line) : S.Rests x := by
    have hheading : S.Heading ⟨start + 1, s, []⟩ :=
      .of_crossings (crossings_start hreserves hat.prologue) (.here hstart)
    exact (hheading.run hrun).rests hx
  refine ⟨fun x hrun hx => (hrests hrun hx).area, ?_, ?_⟩
  · intro x d hrun hfunction hd hcall hroom
    obtain ⟨start', body', hat'⟩ := hlinked.functions d (hfunctions d _ hfunction hcall)
    rw [hd] at hat'
    have hslot := (hrests hrun (not_onSwitch_call hcall)).slot
    have hturns := turns_call hreserves hlinked.once hat'.prologue hd hcall
      ((Nat.zero_add _).symm ▸ hroom) hslot
    exact ⟨start', _, hat'.prologue, ReflTransGen.mono (fun _ _ h => h.passage) _ _ hturns, by simp⟩
  · intro x d hrun hfunction hd hcall hroom
    obtain ⟨start', body', hat'⟩ := hlinked.functions d (hfunctions d _ hfunction hcall)
    rw [hd] at hat'
    have hslot : x.machine.load (P.address .returnTop) = P.mark x.opened.length := by
      have hslot := (hrests hrun (not_onSwitch_call hcall)).slot
      rwa [show S.base = 0 from rfl, Nat.zero_add] at hslot
    have hcourses := courses_call_entry hreserves hlinked.once hat'.prologue hcall hroom hroom hslot
    exact ⟨start', _, hat'.prologue, ReflTransGen.mono (fun _ _ h => h.passage) _ _ hcourses,
      inBuffer_call_entry hreserves hroom hslot _⟩

end Steps

/-- **Programs keep their stacks apart** until they call the function they start with. -/
theorem stacksApart_of_parseChars {options : ParseOptions} {store after : Store}
    {source : List Char} {unit : List DefId}
    (h : parseChars options store source = ⟨.ok unit, after⟩) {emit : EmitOptions}
    {lines : List Line} (hlines : (lowerUnit emit after (emitLevels after {}) unit).Gives lines ())
    (hasm : ∀ text, .verbatim text ∉ lines) {World : Type} {P : Platform World} (hP : P.Fits lines)
    (hkernel : ∀ s s', P.kernel s s' → s'.registers .rsp = s.registers .rsp) {id : DefId}
    {d : Definition} (hid : id ∈ unit) (hd : after.def? id = some d) (hentry : d.isEntry = true)
    {pc : Nat} (hlabel : lines[pc]? = some (.label d.label)) {s : Machine World}
    (hs : ¬ P.InBuffer (s.registers .rsp)) :
    StacksApart P lines (fun d => ∃ id ∈ unit, after.def? id = some d) ⟨pc, s, []⟩ := by
  obtain ⟨chunks, hunit, husage⟩ := unitUsage_of_parseChars h
  obtain rfl := hlines.lines_eq (hunit.gives_lines emit)
  have hlinked := hunit.linked emit husage
  have hlowered : LoweredFunction emit after unit chunks d :=
    ⟨Definition.isFunction_of_isEntry hentry, hunit.entry_kept emit husage hid hd hentry⟩
  obtain ⟨start, body, hat⟩ := hlinked.functions d hlowered
  rw [hentry] at hat
  rw [hlinked.once _ _ _ hlabel hat.label]
  refine stacksApart hP (reserves_of_unitLines hP) hlinked hkernel hasm hat hs ?_
  rintro d' c ⟨id', hid', hd'⟩ hcall
  exact (hunit.called emit husage hid' hd' hcall).1

/-! ## Two programs -/

def firstFunction : Definition := (nestedCalls.store.def? ⟨2, 0⟩).get (by decide +kernel)

def Line.callsEntry : Line → Bool
  | .instruction (.call l) => l.isEntry
  | _ => false

theorem verbatim_not_mem {lines : List Line} (h : ∀ line ∈ lines, line.isCode = line.isInstruction)
    (text : String) : .verbatim text ∉ lines := by
  intro hmem
  have := h _ hmem
  cases this

theorem firstFunction_facts :
    firstFunction.isEntry = true ∧ outerFunction.isEntry = false ∧
      Sits nestedLines 30 (prologue firstFunction true) ∧
      nestedLines[34]? = some (.remark (.token "call" 13)) ∧
      (∀ line ∈ nestedLines, line.isCode = line.isInstruction) ∧
      ∀ line ∈ nestedLines, line.callsEntry = false := by
  decide +kernel

theorem outside_plainMachine : ¬ plainPlatform.InBuffer (plainMachine.registers .rsp) := by
  decide

/-- The function that is called takes over the data stack. -/
theorem stacksApart_nested :
    let P := plainPlatform
    let s := P.started plainMachine
    ¬ P.InBuffer (plainMachine.registers .rsp) ∧
      ReflTransGen (OrderlyInside P nestedLines) ⟨31, plainMachine, []⟩ ⟨35, s, []⟩ ∧
      ¬ P.InBuffer (s.registers .rsp) ∧
      ∃ start t, Sits nestedLines start (prologue outerFunction false) ∧
        ReflTransGen (Passage P nestedLines) ⟨35, s, []⟩ ⟨start + 4, t, [38]⟩ ∧
        t.registers .rsp = s.registers .rsp := by
  intro P s
  obtain ⟨houtcome, -⟩ := nestedCalls_facts
  obtain ⟨-, -, -, -, -, hcall, -, hsize, hstorage⟩ := nestedLines_facts
  obtain ⟨hentry, houter, hat, hremark, hcode, hcalls⟩ := firstFunction_facts
  have hparsed : nestedCalls = ⟨.ok [⟨0, 0⟩, ⟨1, 0⟩, ⟨2, 0⟩], nestedCalls.store⟩ := by
    rw [← houtcome]
  have hP : P.Fits nestedLines := fits_plainPlatform hsize hstorage
  have hreserves : P.Reserves := ⟨by decide, by decide⟩
  have hkernel (s s' : Machine Unit) (h : P.kernel s s') : s'.registers .rsp = s.registers .rsp :=
    congrArg (fun s => s.registers .rsp) h
  have hid : (⟨2, 0⟩ : DefId) ∈ [⟨0, 0⟩, ⟨1, 0⟩, ⟨2, 0⟩] := by decide
  have hid' : (⟨1, 0⟩ : DefId) ∈ [⟨0, 0⟩, ⟨1, 0⟩, ⟨2, 0⟩] := by decide
  have hlines := lowerUnit_gives_of_parseChars hparsed {}
  have hapart := stacksApart_of_parseChars hparsed hlines (verbatim_not_mem hcode) hP hkernel hid
    (Option.some_get _).symm hentry hat.2.1 outside_plainMachine
  have hnext : Course P nestedLines ⟨34, s, []⟩ ⟨35, s, []⟩ :=
    .of_passage (.remark hremark) hremark (fun _ => rfl) rfl (Nat.zero_le _)
  have hrun : ReflTransGen (OrderlyInside P nestedLines) ⟨31, plainMachine, []⟩ ⟨35, s, []⟩ := by
    refine ReflTransGen.mono (fun x y h => ⟨h.orderly, fun name hname => ?_⟩) _ _
      ((courses_start hreserves hat (Nat.zero_le _)).tail hnext)
    have := hcalls _ (List.mem_of_getElem? hname)
    cases this
  refine ⟨outside_plainMachine, hrun, hapart.outside _ hrun (not_onSwitch_call hcall), ?_⟩
  exact hapart.adopts _ _ hrun ⟨_, hid', (Option.some_get _).symm⟩ houter hcall (by decide)

/-- A program that calls itself. -/
def selfCall : Parsed :=
  parseChars {} (Store.empty 100) "func main { main call }".toList

def selfCallLines : List Line :=
  (lowerUnit {} selfCall.store (emitLevels selfCall.store {}) [⟨0, 0⟩] {}).lines

def selfFunction : Definition := (selfCall.store.def? ⟨0, 0⟩).get (by decide +kernel)

theorem selfCallLines_facts :
    selfCall.outcome = .ok [⟨0, 0⟩] ∧ Sits selfCallLines 4 (prologue selfFunction true) ∧
      selfCallLines[8]? = some (.remark (.token "call" 3)) ∧
      Sits selfCallLines 9 (callLines selfFunction) ∧ (definedLabels selfCallLines).Nodup ∧
      (∀ line ∈ selfCallLines, line.isCode = line.isInstruction) ∧
      selfCallLines.length ≤ 1000 ∧ storageFits plainPlatform.address selfCallLines = true := by
  decide +kernel

/-- **The body of a function runs on the return stack**: a program that calls the function it starts
with. -/
theorem entry_call_in_buffer :
    let P := plainPlatform
    selfCall.outcome = .ok [⟨0, 0⟩] ∧ (∀ text, .verbatim text ∉ selfCallLines) ∧
      P.Fits selfCallLines ∧ selfCallLines[5]? = some (.label selfFunction.label) ∧
      ¬ P.InBuffer (plainMachine.registers .rsp) ∧
      ∃ t, ReflTransGen (Orderly P selfCallLines) ⟨5, plainMachine, []⟩ ⟨8, t, [12]⟩ ∧
        P.InBuffer (t.registers .rsp) := by
  intro P
  obtain ⟨houtcome, hat, hremark, hcall, hnodup, hcode, hsize, hstorage⟩ := selfCallLines_facts
  have hreserves : P.Reserves := ⟨by decide, by decide⟩
  have hslot : (P.started plainMachine).load (P.address .returnTop) = P.mark 0 := load_started_top
  have hcourses : ReflTransGen (Course P selfCallLines) ⟨5, plainMachine, []⟩
      ⟨8, P.started ((P.toReturnStack (P.started plainMachine)).push (P.place 12)), [12]⟩ := by
    have hnext : Course P selfCallLines ⟨8, P.started plainMachine, []⟩
        ⟨9, P.started plainMachine, []⟩ :=
      .of_passage (.remark hremark) hremark (fun _ => rfl) rfl (Nat.zero_le _)
    refine (courses_start hreserves hat (Nat.zero_le _)).trans (.head hnext ?_)
    exact courses_call_entry hreserves (symbolsOnce_of_nodup hnodup) hat hcall (by decide) (by decide)
      hslot
  refine ⟨houtcome, verbatim_not_mem hcode, fits_plainPlatform hsize hstorage, hat.2.1,
    outside_plainMachine, _, ReflTransGen.mono (fun _ _ h => h.orderly) _ _ hcourses, ?_⟩
  exact inBuffer_call_entry hreserves (by decide) hslot _

end StackCompiler
