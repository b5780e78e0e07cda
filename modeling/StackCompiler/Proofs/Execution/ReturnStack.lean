import StackCompiler.Proofs.Execution.Protocol

/-!
# Calls return

Between calls and returns the return stack holds the addresses that open calls return to, and its
cell holds its top. This is kept by every step that neither writes this memory nor goes where it
should not, so that each function returns to the call it came from.

* `Careful`: steps that the return stack survives.
* `Watch`: a program and the steps of it that are looked at.
* `Watch.Rests`, `Watch.Heading`: what holds between and during switches.
* **`Watch.Heading.run`**: it holds all along.
* **`call_returns_of_parseChars`**: calls return.
-/

namespace StackCompiler

open Instruction Register Relation

section Steps

variable {World : Type}

/-- **A step that the return stack survives**, if so many calls are open in addition. -/
structure Careful (P : Platform World) (lines : List Line) (k : Nat) (x y : Config World) :
    Prop where
  exec : Exec P lines x y
  /-- Only lines that switch stacks write the memory of the return stack. -/
  writes : ∀ line, lines[x.line]? = some line → line.isOrdinary = true →
    P.SameReserved x.machine y.machine
  /-- Lines of the source program go to the next line. -/
  stays : ∀ text, lines[x.line]? = some (.verbatim text) → y.line = x.line + 1
  /-- The function that the program starts with is not called. -/
  entry : ∀ name, lines[x.line]? ≠ some (code (.call (.entry name)))
  /-- The return stack has room. -/
  nesting : k + y.opened.length ≤ returnStackSize / 8

/-- **A program and the steps of it that are looked at.** -/
structure Watch (World : Type) where
  P : Platform World
  lines : List Line
  callee : Definition → Prop
  fits : P.Fits lines
  reserves : P.Reserves
  linked : Linked callee lines
  /-- The calls that are open at the beginning. -/
  base : Nat
  /-- Are all steps from the start of the program on looked at? -/
  whole : Bool
  /-- The addresses where the data stack may be. -/
  area : BitVec 64 → Prop
  Step : Config World → Config World → Prop
  careful : ∀ x y, Step x y → Careful P lines base x y
  /-- No step leaves the function that was running at the beginning. -/
  returns : whole = false → ∀ x y, Step x y → lines[x.line]? = some (code .ret) → x.opened ≠ []
  area_of_ordinary : ∀ x y line, Step x y → lines[x.line]? = some line → line.isOrdinary = true →
    area (x.machine.registers .rsp) → area (y.machine.registers .rsp)

end Steps

/-! ## Open calls -/

section Open

variable {World : Type} {P : Platform World} {s s' : Machine World} {k : Nat} {o : List Nat}

/-- **The return stack holds the addresses** that open calls return to. -/
def Holds (P : Platform World) (s : Machine World) (k : Nat) : List Nat → Prop
  | [] => True
  | r :: o => s.load (P.mark (k + o.length + 1)) = P.place r ∧ Holds P s k o

theorem Holds.congr (h : Holds P s k o) (hload : ∀ j < k + o.length,
      s'.load (P.mark (j + 1)) = s.load (P.mark (j + 1))) : Holds P s' k o := by
  induction o with
  | nil => trivial
  | cons r o ih =>
    rw [List.length_cons] at hload
    refine ⟨?_, ih h.2 fun j hj => hload j (by omega)⟩
    rw [hload (k + o.length) (by omega)]
    exact h.1

/-- **Open calls return to code** that goes on behind a call. Where all steps are looked at, the first
function is the one that the program starts with. -/
def Resumes (callee : Definition → Prop) (lines : List Line) (whole : Bool) : List Nat → Bool → Prop
  | [], isEntry => whole = true → isEntry = true
  | r :: o, isEntry => isEntry = false ∧
    ∃ c l caller rest, r = c + 1 ∧ lines[c]? = some (code (.call l)) ∧ Sits lines r backLines ∧
      CodeAt callee lines caller (r + 2) rest ∧ Resumes callee lines whole o caller

end Open

section Memory

variable {World : Type} {P : Platform World} {s s' : Machine World}

theorem Platform.SameReserved.load_top (h : P.SameReserved s s') (hP : P.Reserves) :
    s'.load (P.address .returnTop) = s.load (P.address .returnTop) :=
  Machine.load_congr fun b hb => h b (.inr (hP.inSlot_of_sub hb))

theorem Platform.SameReserved.load_mark (h : P.SameReserved s s') (hP : P.Reserves) {j : Nat}
    (hj : j < 512) : s'.load (P.mark (j + 1)) = s.load (P.mark (j + 1)) :=
  Machine.load_congr fun b hb => h b (.inl (hP.inBuffer_of_mark hj hb))

end Memory

/-! ## Between switches -/

theorem Exec.not_blank {World : Type} {P : Platform World} {lines : List Line} {x y : Config World}
    (h : Exec P lines x y) : lines[x.line]? ≠ some .blank := by
  intro hblank
  cases h <;> simp_all

/-- Code is ordinary or goes over to the return stack. -/
theorem Tidy.head {callee : Definition → Prop} {isEntry : Bool} {line : Line} {rest : List Line}
    (h : Tidy callee isEntry (line :: rest)) :
    line.isOrdinary = true ∨ line = code (mov rax.whole rsp.whole) := by
  generalize hxs : line :: rest = xs at h
  cases h with
  | halt => cases hxs
  | leave => exact .inr (List.cons.inj hxs).1
  | line hx _ => exact .inl ((List.cons.inj hxs).1 ▸ hx)
  | call _ _ => exact .inr (List.cons.inj hxs).1

/-- **Ordinary lines stay in their function.** -/
theorem CodeAt.exec {World : Type} {P : Platform World} {callee : Definition → Prop}
    {lines rest : List Line} {isEntry : Bool} {line : Line} {x y : Config World}
    (h : CodeAt callee lines isEntry x.line (line :: rest)) (hrest : Tidy callee isEntry rest)
    (honce : SymbolsOnce lines) (hline : line.isOrdinary = true) (hexec : Exec P lines x y)
    (hstays : ∀ text, lines[x.line]? = some (.verbatim text) → y.line = x.line + 1) :
    y.opened = x.opened ∧ ∃ rest', CodeAt callee lines isEntry y.line rest' := by
  have hat := h.sits.1
  have hnext : CodeAt callee lines isEntry (x.line + 1) rest := by
    rw [← List.singleton_append] at h
    exact h.skip hrest
  cases hexec with
  | label _ => exact ⟨rfl, rest, hnext⟩
  | remark _ => exact ⟨rfl, rest, hnext⟩
  | plain _ _ => exact ⟨rfl, rest, hnext⟩
  | syscall _ _ => exact ⟨rfl, rest, hnext⟩
  | noJump _ _ => exact ⟨rfl, rest, hnext⟩
  | verbatim hverbatim _ =>
    refine ⟨rfl, rest, ?_⟩
    rw [hstays _ hverbatim]
    exact hnext
  | jump hjump htarget =>
    rw [hat] at hjump
    cases hjump
    exact ⟨rfl, h.jump honce rfl htarget⟩
  | jumpIfZero hjump _ htarget =>
    rw [hat] at hjump
    cases hjump
    exact ⟨rfl, h.jump honce rfl htarget⟩
  | call hcall _ =>
    rw [hat] at hcall
    cases hcall
    cases hline
  | ret hret _ _ _ =>
    rw [hat] at hret
    cases hret
    cases hline

namespace Watch

variable {World : Type} (S : Watch World)

/-- **What holds between switches.** -/
structure Rests (x : Config World) : Prop where
  code : ∃ isEntry rest, CodeAt S.callee S.lines isEntry x.line rest ∧
    Resumes S.callee S.lines S.whole x.opened isEntry
  nesting : S.base + x.opened.length ≤ returnStackSize / 8
  slot : x.machine.load (S.P.address .returnTop) = S.P.mark (S.base + x.opened.length)
  held : Holds S.P x.machine S.base x.opened
  area : S.area (x.machine.registers .rsp)

/-- **What holds during switches**: the program is bound to come to rest. -/
inductive Heading : Config World → Prop where
  | here {x : Config World} (h : S.Rests x) : Heading x
  -- The steps of interest may end within a switch: at a call without room, say.
  | blocked {x : Config World} (hswitch : OnSwitch S.lines x.line) (h : ∀ y, ¬ S.Step x y) :
      Heading x
  | on {x y : Config World} (hstep : Crossing S.P S.lines x y) (hnext : Heading y) : Heading x

variable {S}

theorem Heading.of_crossings {x y : Config World}
    (hsteps : ReflTransGen (Crossing S.P S.lines) x y) (h : S.Heading y) : S.Heading x := by
  induction hsteps using ReflTransGen.head_induction_on with
  | refl => exact h
  | head hstep _ ih => exact .on hstep ih

theorem Heading.rests {x : Config World} (h : S.Heading x) (hx : ¬ OnSwitch S.lines x.line) :
    S.Rests x := by
  cases h with
  | here h => exact h
  | blocked hswitch _ => exact absurd hswitch hx
  | on hstep _ => exact absurd hstep.1 hx

/-- **Ordinary lines keep the return stack.** -/
theorem Rests.ordinary {x y : Config World} (h : S.Rests x) {isEntry : Bool} {line : Line}
    {rest : List Line} (hcode : CodeAt S.callee S.lines isEntry x.line (line :: rest))
    (hrest : Tidy S.callee isEntry rest) (hline : line.isOrdinary = true)
    (hresumes : Resumes S.callee S.lines S.whole x.opened isEntry) (hstep : S.Step x y) :
    S.Rests y := by
  have hcareful := S.careful x y hstep
  have hsame := hcareful.writes line hcode.sits.1 hline
  have hsize : returnStackSize / 8 = 512 := rfl
  obtain ⟨hopened, rest', hcode'⟩ :=
    hcode.exec hrest S.linked.once hline hcareful.exec hcareful.stays
  refine ⟨⟨isEntry, rest', hcode', ?_⟩, hcareful.nesting, ?_, ?_, ?_⟩
  · rw [hopened]
    exact hresumes
  · rw [hopened, hsame.load_top S.reserves]
    exact h.slot
  · have hnesting := h.nesting
    rw [hopened]
    exact h.held.congr fun j hj => hsame.load_mark S.reserves (by omega)
  · exact S.area_of_ordinary x y line hstep hcode.sits.1 hline h.area

/-- **The program gets over a call.** -/
theorem Rests.call {x : Config World} (h : S.Rests x) {isEntry : Bool} {d : Definition}
    {rest : List Line} (hcode : CodeAt S.callee S.lines isEntry x.line (callLines d ++ rest))
    (hd : S.callee d) (hrest : Tidy S.callee isEntry rest)
    (hresumes : Resumes S.callee S.lines S.whole x.opened isEntry) :
    S.Heading ⟨x.line + 2, S.P.toReturnStack x.machine, x.opened⟩ := by
  obtain ⟨-, -, hcall, hback⟩ := (sits_append.mp hcode.sits).1
  obtain ⟨start, body, hat⟩ := S.linked.functions d hd
  have hsize : returnStackSize / 8 = 512 := rfl
  by_cases hentry : d.isEntry = true
  · refine .blocked ⟨_, hcall, rfl⟩ fun z hz => (S.careful _ z hz).entry d.name ?_
    rw [← Definition.label_of_isEntry hentry]
    exact hcall
  rw [Bool.not_eq_true] at hentry
  by_cases hroom : S.base + x.opened.length < 512
  · rw [hentry] at hat
    refine .of_crossings (crossings_call S.reserves S.linked.once hat.prologue hcall hroom h.slot) (.here ?_)
    refine ⟨⟨false, _, hat.codeAt, rfl, x.line + 2, d.label, isEntry, rest, rfl, hcall, hback, ?_,
      hresumes⟩, ?_, ?_, ?_, ?_⟩
    · exact hcode.skip hrest
    · simp only [List.length_cons]
      omega
    · exact load_entered_top S.reserves hroom h.slot
    · refine ⟨load_entered_mark S.reserves hroom h.slot, h.held.congr fun j hj => ?_⟩
      exact load_entered_of_lt S.reserves hroom h.slot hj
    · rw [registers_entered_rsp]
      exact h.area
  · -- A call would have to put its address outside the return stack.
    refine .blocked ⟨_, hcall, rfl⟩ fun z hz => ?_
    have hcareful := S.careful _ z hz
    have hnesting := hcareful.nesting
    rw [(Sure.call S.linked.once hcall hat.label).2 z hcareful.exec, List.length_cons] at hnesting
    omega

/-- **The program gets out of a function.** -/
theorem Rests.leave {x : Config World} (h : S.Rests x)
    (hcode : CodeAt S.callee S.lines false x.line leaveLines)
    (hresumes : Resumes S.callee S.lines S.whole x.opened false) :
    S.Heading ⟨x.line + 2, S.P.toReturnStack x.machine, x.opened⟩ := by
  obtain ⟨-, -, hret, -⟩ := hcode.sits
  obtain ⟨pc, s, opened⟩ := x
  -- Without open calls this is the function where it began, whose caller is not known.
  cases opened with
  | nil =>
    have hwhole : S.whole = false := by
      by_contra hwhole
      exact absurd (hresumes (eq_true_of_ne_false hwhole)) Bool.false_ne_true
    exact .blocked ⟨_, hret, rfl⟩ fun z hz => S.returns hwhole _ z hz hret rfl
  | cons r o =>
    have hnesting := h.nesting
    have hsize : returnStackSize / 8 = 512 := rfl
    rw [List.length_cons] at hnesting
    have hroom : S.base + o.length < 512 := by omega
    obtain ⟨-, c, l, caller, rest, rfl, hcall, hback, hcaller, hresumes⟩ := hresumes
    obtain ⟨hplace, hheld⟩ := h.held
    refine .on (crossing_ret S.fits hret hcall hback h.slot hplace)
      (.of_crossings (crossings_toDataStack S.reserves hback) (.here ?_))
    refine ⟨⟨caller, rest, hcaller, hresumes⟩, Nat.le_of_lt (hsize ▸ hroom), ?_, ?_, ?_⟩
    · exact load_left_top S.reserves hroom h.slot
    · exact hheld.congr fun j hj => load_left_mark S.reserves (Nat.lt_trans hj hroom)
    · show S.area ((S.P.left s).registers .rsp)
      rw [registers_left_rsp]
      exact h.area

/-- **What a step keeps.** -/
theorem Rests.step {x y : Config World} (h : S.Rests x) (hstep : S.Step x y) : S.Heading y := by
  obtain ⟨isEntry, rest, hcode, hresumes⟩ := h.code
  have hexec := (S.careful x y hstep).exec
  -- The code at hand is ordinary, or the first line of a call or of the end of a function.
  cases hcode.tidy with
  | halt => exact absurd hcode.behind hexec.not_blank
  | line hx hrest => exact .here (h.ordinary hcode hrest hx hresumes hstep)
  | leave =>
    obtain ⟨hmov, hswitch, -⟩ := hcode.sits
    rw [(Sure.mov hmov fun _ => exec_mov_register).2 y hexec]
    exact .on (crossing_toReturnStack hswitch) (h.leave hcode hresumes)
  | call hd hrest =>
    obtain ⟨hmov, hswitch, -⟩ := (sits_append.mp hcode.sits).1
    rw [(Sure.mov hmov fun _ => exec_mov_register).2 y hexec]
    exact .on (crossing_toReturnStack hswitch) (h.call hcode hd hrest hresumes)

theorem Heading.step {x y : Config World} (h : S.Heading x) (hstep : S.Step x y) : S.Heading y := by
  cases h with
  | here h => exact h.step hstep
  | blocked _ hblocked => exact absurd hstep (hblocked y)
  | on hcrossing hnext =>
    rw [hcrossing.2.sure.2 y (S.careful x y hstep).exec]
    exact hnext

/-- **What a run keeps.** -/
theorem Heading.run {x y : Config World} (h : S.Heading x) (hrun : ReflTransGen S.Step x y) :
    S.Heading y := by
  induction hrun with
  | refl => exact h
  | tail _ hstep ih => exact ih.step hstep

/-- **Lines that switch stacks leave the data stack alone.** -/
theorem Heading.elsewhere {x y : Config World} (h : S.Heading x) (hstep : S.Step x y) {line : Line}
    (hline : S.lines[x.line]? = some line) (hordinary : line.isOrdinary = false) :
    S.P.SameElsewhere x.machine y.machine := by
  have hexec := (S.careful x y hstep).exec
  cases h with
  | here h =>
    obtain ⟨isEntry, rest, hcode, -⟩ := h.code
    cases rest with
    | nil => exact absurd hcode.behind hexec.not_blank
    | cons line' rest =>
      obtain rfl : line' = line := Option.some.inj (hcode.sits.1.symm.trans hline)
      rcases hcode.tidy.head with hhead | rfl
      · exact absurd hhead (Bool.eq_false_iff.mp hordinary)
      · have hpassage := Passage.mov_register (P := S.P) (s := x.machine) (o := x.opened) hline
        rw [hpassage.sure.2 y hexec]
        exact hpassage.elsewhere
  | blocked _ hblocked => exact absurd hstep (hblocked y)
  | on hcrossing _ =>
    rw [hcrossing.2.sure.2 y hexec]
    exact hcrossing.2.elsewhere

end Watch

/-! ## Calls -/

section Calls

variable {World : Type}

/-- **A careful step during a call**: the function that made the call does not return. -/
structure DuringCall (P : Platform World) (lines : List Line) (k : Nat) (x y : Config World) :
    Prop extends Careful P lines k x y where
  returns : lines[x.line]? = some (code .ret) → x.opened ≠ []

/-- A step that a call or a return consists of. -/
structure Turn (P : Platform World) (lines : List Line) (k : Nat) (x y : Config World) : Prop where
  passage : Passage P lines x y
  careful : DuringCall P lines k x y

/-- **A call at a place returns**, in a machine where so many calls are open already. -/
structure CallReturns (P : Platform World) (lines : List Line) (k c : Nat) (s : Machine World)
    (start : Nat) (body : List Line) : Prop where
  /-- The body of the function starts with the data stack of the caller. -/
  enters : k < returnStackSize / 8 → ∃ t,
    ReflTransGen (Turn P lines k) ⟨c, s, []⟩ ⟨start + 4, t, [c + 3]⟩ ∧
      t.registers .rsp = s.registers .rsp
  /-- From the end of the body the program goes to the line behind the call, and from there back to
  the data stack that the body left. The return stack is what it was. -/
  returns : ∀ y, ReflTransGen (DuringCall P lines k) ⟨c, s, []⟩ y → y.opened = [c + 3] →
    y.line = start + 4 + body.length → ∃ u t,
      ReflTransGen (Turn P lines k) y ⟨c + 3, u, []⟩ ∧
      ReflTransGen (Turn P lines k) ⟨c + 3, u, []⟩ ⟨c + 5, t, []⟩ ∧
      t.load (P.address .returnTop) = s.load (P.address .returnTop) ∧
      t.registers .rsp = y.machine.registers .rsp
  /-- Meanwhile lines that switch stacks leave the data stack alone. -/
  elsewhere : ∀ y z line, ReflTransGen (DuringCall P lines k) ⟨c, s, []⟩ y →
    DuringCall P lines k y z → lines[y.line]? = some line → line.isOrdinary = false →
    P.SameElsewhere y.machine z.machine

variable {P : Platform World} {lines : List Line} {callee : Definition → Prop} {d : Definition}
  {start c k n : Nat} {body rest : List Line} {s : Machine World} {o : List Nat} {isEntry : Bool}

/-- Lines that switch stacks, and lines that do nothing, are careful. -/
theorem Turn.of_passage {x y : Config World} {line : Line} (h : Passage P lines x y)
    (hline : lines[x.line]? = some line)
    (hordinary : line.isOrdinary = true →
      y.machine.memory = x.machine.memory ∧ y.line = x.line + 1)
    (hcall : ∀ name, line ≠ code (.call (.entry name))) (hret : line = code .ret → x.opened ≠ [])
    (hnesting : k + y.opened.length ≤ returnStackSize / 8) : Turn P lines k x y where
  passage := h
  careful := by
    refine ⟨⟨h.sure.1, fun line' hline' hordinary' => ?_, fun text htext => ?_, fun name hname => ?_,
      hnesting⟩, fun hline' => ?_⟩
    · obtain rfl := Option.some.inj (hline.symm.trans hline')
      exact fun a _ => congrFun (hordinary hordinary').1 a
    · obtain rfl := Option.some.inj (hline.symm.trans htext)
      exact (hordinary rfl).2
    · exact hcall name (Option.some.inj (hline.symm.trans hname))
    · exact hret (Option.some.inj (hline.symm.trans hline'))

theorem Turn.remark {pc : Nat} {r : Remark} (h : lines[pc]? = some (.remark r))
    (hroom : k + o.length ≤ 512) : Turn P lines k ⟨pc, s, o⟩ ⟨pc + 1, s, o⟩ :=
  .of_passage (.remark h) h (fun _ => ⟨rfl, rfl⟩) nofun nofun hroom

theorem Turn.mov {x y : Config World} {t u : Operand} (h : Passage P lines x y)
    (hline : lines[x.line]? = some (code (.mov t u)))
    (hswitch : (Instruction.mov t u).isOrdinary = false) (hroom : k + y.opened.length ≤ 512) :
    Turn P lines k x y := by
  refine .of_passage h hline (fun hordinary => ?_) nofun nofun hroom
  exact absurd hordinary (Bool.eq_false_iff.mp hswitch)

/-- **Back to the data stack.** -/
theorem turns_back (hP : P.Reserves) (hback : Sits lines c backLines)
    (hroom : k + o.length ≤ 512) :
    ReflTransGen (Turn P lines k) ⟨c, s, o⟩ ⟨c + 2, P.toDataStack s, o⟩ := by
  obtain ⟨hsave, hadopt, -⟩ := hback
  refine .head (.mov (.mov_to_top hP hsave) hsave rfl hroom) (.single ?_)
  exact .mov (.mov_register hadopt) hadopt rfl hroom

/-- **From a call to the body of the function.** -/
theorem turns_call (hP : P.Reserves) (honce : SymbolsOnce lines)
    (hat : Sits lines start (prologue d false)) (hd : d.isEntry = false)
    (hcall : Sits lines c (callLines d)) (hroom : k + o.length < 512)
    (hslot : s.load (P.address .returnTop) = P.mark (k + o.length)) :
    ReflTransGen (Turn P lines k) ⟨c, s, o⟩ ⟨start + 4, P.entered s (c + 3), (c + 3) :: o⟩ := by
  obtain ⟨hmov, hswitch, hcall, -⟩ := hcall
  obtain ⟨-, hlabel, hback⟩ := hat
  have hless := Nat.le_of_lt hroom
  have hcalls (name : String) : code (.call d.label) ≠ code (.call (.entry name)) := by
    intro heq
    have hentry := congrArg Label.isEntry (Instruction.call.inj (Line.instruction.inj heq))
    rw [d.isEntry_label, hd] at hentry
    cases hentry
  have hrsp : (P.toReturnStack s).registers .rsp = P.mark (k + o.length) :=
    registers_toReturnStack_rsp.trans hslot
  refine .head (.mov (.mov_register hmov) hmov rfl hless) ?_
  refine .head (.mov (.mov_cell hswitch) hswitch rfl hless) ?_
  refine .head (.of_passage (.call hP honce hcall hlabel hroom hrsp) hcall nofun hcalls nofun hroom) ?_
  refine .head (.of_passage (.label hlabel) hlabel (fun _ => ⟨rfl, rfl⟩) nofun nofun hroom) ?_
  exact turns_back hP hback hroom

/-- **From the end of a body to the line behind the call.** -/
theorem turns_leave {e : Nat} {l : Label} (hP : P.Fits lines)
    (hend : Sits lines e (epilogue false)) (hcall : lines[c]? = some (code (.call l)))
    (hback : Sits lines (c + 1) backLines) (hroom : k + o.length < 512)
    (hslot : s.load (P.address .returnTop) = P.mark n)
    (hheld : s.load (P.mark n) = P.place (c + 1)) :
    ReflTransGen (Turn P lines k) ⟨e, s, (c + 1) :: o⟩
      ⟨c + 1, (P.toReturnStack s).dropTop, o⟩ := by
  obtain ⟨hremark, hmov, hswitch, hret, -⟩ := hend
  have hpassage := (crossing_ret (o := o) hP hret hcall hback hslot hheld).2
  refine .head (.remark hremark hroom) ?_
  refine .head (.mov (.mov_register hmov) hmov rfl hroom) ?_
  refine .head (.mov (.mov_cell hswitch) hswitch rfl hroom) (.single ?_)
  exact .of_passage hpassage hret nofun nofun (fun _ => List.cons_ne_nil _ _) (Nat.le_of_lt hroom)

def duringCall (hP : P.Fits lines) (hreserves : P.Reserves) (hlinked : Linked callee lines)
    (k : Nat) : Watch World where
  P := P
  lines := lines
  callee := callee
  fits := hP
  reserves := hreserves
  linked := hlinked
  base := k
  whole := false
  area := fun _ => True
  Step := DuringCall P lines k
  careful := fun _ _ h => h.toCareful
  returns := fun _ _ _ h => h.returns
  area_of_ordinary := fun _ _ _ _ _ _ _ => trivial

/-- **Calls of functions that stand at their places return.** -/
theorem callReturns (hP : P.Fits lines) (hreserves : P.Reserves) (hlinked : Linked callee lines)
    (hat : FunctionAt callee lines d false start body) (hd : d.isEntry = false)
    (hcode : CodeAt callee lines isEntry c (callLines d ++ rest))
    (hslot : s.load (P.address .returnTop) = P.mark k) :
    CallReturns P lines k c s start body := by
  have hsits := (sits_append.mp hcode.sits).1
  let S := duringCall hP hreserves hlinked k
  have hheading (hk : k ≤ 512) : S.Heading ⟨c, s, []⟩ :=
    .here ⟨⟨isEntry, _, hcode, nofun⟩, hk, hslot, trivial, trivial⟩
  refine ⟨fun hk => ⟨_, turns_call hreserves hlinked.once hat.prologue hd hsits hk hslot, by simp⟩,
    ?_, ?_⟩
  · rintro ⟨e, u, o⟩ hrun rfl rfl
    -- The call is open by now, so that there was a step.
    have hk : k ≤ 512 := by
      rcases hrun.cases_head with heq | ⟨y, hstep, -⟩
      · cases heq
      · exact Nat.le_of_add_right_le hstep.nesting
    have hend : Sits lines (start + 4 + body.length) (epilogue false) := by
      have hsits := (sits_append.mp hat.sits).2
      rw [length_prologue, sits_append] at hsits
      exact hsits.2
    have hswitch : ¬ OnSwitch lines (start + 4 + body.length) := by
      rintro ⟨line, hline, hswitch⟩
      obtain rfl := Option.some.inj (hend.1.symm.trans hline)
      cases hswitch
    have hrest := ((hheading hk).run hrun).rests hswitch
    obtain ⟨-, -, hcall, hback⟩ := hsits
    refine ⟨_, P.left u, turns_leave hP hend hcall hback hrest.nesting hrest.slot hrest.held.1,
      turns_back hreserves hback hk, ?_, registers_left_rsp⟩
    rw [hslot]
    exact load_left_top hreserves hrest.nesting hrest.slot
  · intro y z line hrun hstep hline hordinary
    have hk : k ≤ 512 := Nat.le_of_add_right_le hstep.nesting
    exact ((hheading hk).run hrun).elsewhere hstep hline hordinary

end Calls

/-! ## Units -/

theorem lowerUnit_gives_of_parseChars {options : ParseOptions} {store after : Store}
    {source : List Char} {unit : List DefId}
    (h : parseChars options store source = ⟨.ok unit, after⟩) (emit : EmitOptions) :
    (lowerUnit emit after (emitLevels after {}) unit).Gives
      (lowerUnit emit after (emitLevels after {}) unit {}).lines () := by
  obtain ⟨chunks, hunit, -⟩ := unitUsage_of_parseChars h
  exact (hunit.gives_lines emit).run

/-- **Calls of functions return**, however deep they are nested. -/
theorem call_returns_of_parseChars {options : ParseOptions} {store after : Store}
    {source : List Char} {unit : List DefId}
    (h : parseChars options store source = ⟨.ok unit, after⟩) {emit : EmitOptions}
    {lines : List Line} (hlines : (lowerUnit emit after (emitLevels after {}) unit).Gives lines ())
    {World : Type} {P : Platform World} (hP : P.Fits lines) {id : DefId} {d : Definition}
    {f : Function} (hid : id ∈ unit) (hd : after.def? id = some d) (hf : d.body = .function f)
    (hentry : f.isEntry = false) {c : Nat} (hcall : Sits lines c (callLines d))
    {s : Machine World} {k : Nat} (hslot : s.load (P.address .returnTop) = P.mark k) :
    ∃ start body, Sits lines start (prologue d false ++ (body ++ epilogue false)) ∧
      (lowerBlock after (emitLevels after {}) f.body).Gives body () ∧
      CallReturns P lines k c s start body := by
  obtain ⟨chunks, hunit, husage⟩ := unitUsage_of_parseChars h
  obtain rfl := hlines.lines_eq (hunit.gives_lines emit)
  obtain ⟨⟨-, chunk, hq⟩, isEntry, rest, hcode⟩ := hunit.called emit husage hid hd hcall
  obtain ⟨start, body, hat, hgives, -⟩ := hunit.functionAt emit husage hq hf
  rw [hentry] at hat
  have hordinary : d.isEntry = false := by simp [Definition.isEntry, hf, hentry]
  exact ⟨start, body, hat.sits, hgives,
    callReturns hP (reserves_of_unitLines hP) (hunit.linked emit husage) hat hordinary hcode hslot⟩

/-! ## A program with nested calls -/

/-- Code and storage at fixed addresses. -/
def plainPlatform : Platform Unit where
  address
    | .returnTop => 0x601000
    | .returnStack => 0x601008
    | .returnEnd => 0x602008
    | _ => 0x600000
  place line := BitVec.ofNat 64 (0x400000 + 16 * line)
  kernel s s' := s' = s
  verbatim _ _ _ := False

def plainMachine : Machine Unit :=
  ⟨fun _ => 0x7ffffff0, fun _ => 0, ⟨false, false, false, false, false⟩, ()⟩

/-- Does storage on neighbouring lines lie side by side? -/
def storageFits (address : Label → BitVec 64) (lines : List Line) : Bool :=
  (lines.zip lines.tail).all fun
    | (.storage l s, .storage l' _) => (address l').toNat == (address l).toNat + s.size
    | _ => true

theorem fits_plainPlatform {lines : List Line} (hlength : lines.length ≤ 1000)
    (hstorage : storageFits plainPlatform.address lines = true) : plainPlatform.Fits lines where
  storage i l l' s s' hi hj := by
    have hpair : (lines.zip lines.tail)[i]? = some (.storage l s, .storage l' s') :=
      List.getElem?_zip_eq_some.mpr ⟨hi, by rwa [List.getElem?_tail]⟩
    exact of_decide_eq_true (List.all_eq_true.mp hstorage _ (List.mem_of_getElem? hpair))
  apart i j line line' hi _ hj _ hplace := by
    have hi := (List.getElem?_eq_some_iff.mp hi).1
    have hj := (List.getElem?_eq_some_iff.mp hj).1
    have hplace := congrArg BitVec.toNat hplace
    simp only [plainPlatform, BitVec.toNat_ofNat] at hplace
    obtain rfl : j = i := by omega
    exact ⟨Nat.le_refl _, fun _ _ _ _ => by omega⟩

/-- A program whose calls are nested. -/
def nestedCalls : Parsed :=
  parseChars {} (Store.empty 100) "func f { } func g { f call } func main { g call }".toList

def nestedLines : List Line :=
  (lowerUnit {} nestedCalls.store (emitLevels nestedCalls.store {}) [⟨0, 0⟩, ⟨1, 0⟩, ⟨2, 0⟩] {}).lines

def innerFunction : Definition := (nestedCalls.store.def? ⟨0, 0⟩).get (by decide +kernel)

def outerFunction : Definition := (nestedCalls.store.def? ⟨1, 0⟩).get (by decide +kernel)

theorem nestedCalls_facts :
    nestedCalls.outcome = .ok [⟨0, 0⟩, ⟨1, 0⟩, ⟨2, 0⟩] ∧ innerFunction.isEntry = false ∧
      outerFunction.body = .function ⟨[], [], ⟨1, 0⟩, false⟩ ∧
      (lowerBlock nestedCalls.store (emitLevels nestedCalls.store {}) ⟨1, 0⟩ {}).lines.length = 6 := by
  decide +kernel

theorem nestedLines_facts :
    Sits nestedLines 4 (prologue innerFunction false) ∧ Sits nestedLines 8 (epilogue false) ∧
      Sits nestedLines 14 (prologue outerFunction false) ∧
      nestedLines[18]? = some (.remark (.token "call" 7)) ∧
      Sits nestedLines 19 (callLines innerFunction) ∧
      Sits nestedLines 35 (callLines outerFunction) ∧ (definedLabels nestedLines).Nodup ∧
      nestedLines.length ≤ 1000 ∧ storageFits plainPlatform.address nestedLines = true := by
  decide +kernel

/-- A call returns whose function has made a call. -/
theorem call_returns_nested :
    let P := plainPlatform
    let s := P.started plainMachine
    s.load (P.address .returnTop) = P.mark 0 ∧
      ∃ x y, ReflTransGen (DuringCall P nestedLines 0) ⟨35, s, []⟩ x ∧ x.line = 8 ∧
        x.opened = [22, 38] ∧ ReflTransGen (DuringCall P nestedLines 0) x y ∧ y.line = 24 ∧
        y.opened = [38] ∧ ∃ u t,
          ReflTransGen (Turn P nestedLines 0) y ⟨38, u, []⟩ ∧
          ReflTransGen (Turn P nestedLines 0) ⟨38, u, []⟩ ⟨40, t, []⟩ ∧
          t.load (P.address .returnTop) = s.load (P.address .returnTop) ∧
          t.registers .rsp = y.machine.registers .rsp := by
  intro P s
  obtain ⟨houtcome, hentry, hf, hlength⟩ := nestedCalls_facts
  obtain ⟨hinner, hleave, houter, hremark, hcall', hcall, hnodup, hsize, hstorage⟩ :=
    nestedLines_facts
  have hparsed : nestedCalls = ⟨.ok [⟨0, 0⟩, ⟨1, 0⟩, ⟨2, 0⟩], nestedCalls.store⟩ := by
    rw [← houtcome]
  have hlines := lowerUnit_gives_of_parseChars hparsed {}
  have hP : P.Fits nestedLines := fits_plainPlatform hsize hstorage
  have hreserves : P.Reserves := ⟨by decide, by decide⟩
  have honce := symbolsOnce_of_nodup hnodup
  have hid : (⟨1, 0⟩ : DefId) ∈ [⟨0, 0⟩, ⟨1, 0⟩, ⟨2, 0⟩] := by decide
  have hd : nestedCalls.store.def? ⟨1, 0⟩ = some outerFunction := (Option.some_get _).symm
  have hslot : s.load (P.address .returnTop) = P.mark 0 := load_started_top
  have hslot' := load_entered_top (r := 38) hreserves (by decide) hslot
  have hslot'' := load_entered_top (r := 22) hreserves (by decide) hslot'
  have hheld := load_entered_mark (r := 22) hreserves (by decide) hslot'
  -- Both calls are made, and the second one returns.
  have hfirst := turns_call (k := 0) (o := []) hreserves honce houter (by rw [Definition.isEntry, hf])
    hcall (by decide) hslot
  have hnext : Turn P nestedLines 0 ⟨18, P.entered s 38, [38]⟩ ⟨19, P.entered s 38, [38]⟩ :=
    .remark hremark (by decide)
  have hsecond := turns_call (k := 0) (o := [38]) hreserves honce hinner hentry hcall' (by decide)
    hslot'
  have hthird := turns_leave (k := 0) (o := [38]) hP hleave hcall'.2.2.1 hcall'.2.2.2 (by decide)
    hslot'' hheld
  have hcareful {x y : Config Unit} (h : ReflTransGen (Turn P nestedLines 0) x y) :
      ReflTransGen (DuringCall P nestedLines 0) x y :=
    ReflTransGen.mono (fun _ _ h => h.careful) _ _ h
  have hrun := hcareful (hfirst.trans (.head hnext hsecond))
  have hrun' := hcareful (hthird.trans (turns_back hreserves hcall'.2.2.2 (by decide)))
  obtain ⟨start, body, hsits, hgives, hreturns⟩ :=
    call_returns_of_parseChars hparsed hlines hP hid hd hf rfl hcall hslot
  obtain rfl : start = 14 := by
    have := honce _ 15 _ hsits.2.1 houter.2.1
    omega
  have hbody : body.length = 6 := by rw [hgives.lines_eq hgives.run, hlength]
  refine ⟨hslot, _, _, hrun, rfl, rfl, hrun', rfl, rfl, ?_⟩
  exact hreturns.returns _ (hrun.trans hrun') rfl (by rw [hbody])

end StackCompiler
