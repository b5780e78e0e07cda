import StackCompiler.Proofs.Lowering.Strip

/-!
# Devices that are full

Code generation never looks at the room that is left on its device. It writes the same lines to every
device, and the first write that does not fit any more ends it. So a device that is too small for the
code of a unit holds the beginning of that code, up to its last byte.

* `Emission.Cuts`: a part of code generation writes the same lines to every device, up to the first
  that does not fit.
* **`lowerUnit_cuts`**: code generation does so, whatever the unit.
* **`emitUnit_limited`**: the bytes of a parsed unit on a device of any size.
-/

namespace StackCompiler

/-! ## Sizes -/

/-- The size of lines is the number of their bytes. -/
theorem length_assemblyBytes (lines : List Line) :
    (assemblyBytes lines).length = linesSize lines := by
  have hsize (s : String) : (s.toList.flatMap String.utf8EncodeChar).length = s.utf8ByteSize := by
    conv_rhs => rw [← String.ofList_toList (s := s)]
    rw [String.utf8ByteSize, String.toByteArray_ofList, List.utf8Encode, List.size_toByteArray]
  induction lines with
  | nil => rfl
  | cons line lines ih =>
    have hline : assemblyBytes [line] = (line.text ++ "\n").toList.flatMap String.utf8EncodeChar := by
      simp [assemblyBytes, assemblyText, Utf8.encode]
    rw [← List.singleton_append, assemblyBytes_append, List.length_append, ih, hline, hsize,
      String.utf8ByteSize_append]
    rfl

theorem linesSize_append (lines lines' : List Line) :
    linesSize (lines ++ lines') = linesSize lines + linesSize lines' := by
  rw [← length_assemblyBytes, assemblyBytes_append, List.length_append, length_assemblyBytes,
    length_assemblyBytes]

/-! ## Parts of code generation -/

/-- **What comes out on a device that takes so many bytes**, given what comes out on one that takes
everything: the same if the lines fit, and otherwise the lines up to the write that does not fit. -/
structure Emitted.CutTo {α : Type} (capacity : Nat) (reason : String) (free limited : Emitted α) :
    Prop where
  fits : linesSize free.lines ≤ capacity →
    limited = ⟨free.lines, ⟨some (capacity - linesSize free.lines), reason⟩, free.outcome⟩
  stops : capacity < linesSize free.lines →
    limited.outcome = .error ⟨.output reason, none⟩ ∧ capacity < linesSize limited.lines ∧
      ∃ lost, free.lines = limited.lines ++ lost

namespace Emission

/-- **The emission writes the same lines to every device**, up to the first that does not fit. -/
def Cuts {α : Type} (e : Emission α) : Prop :=
  ∀ reason, (e ⟨none, reason⟩).device = ⟨none, reason⟩ ∧
    ∀ capacity, (e ⟨none, reason⟩).CutTo capacity reason (e ⟨some capacity, reason⟩)

namespace Cuts

variable {α β : Type}

theorem pure (a : α) : Cuts (Pure.pure a) := by
  refine fun reason => ⟨rfl, fun capacity => ⟨fun _ => rfl, fun h => ?_⟩⟩
  exact absurd h (Nat.not_lt_zero capacity)

theorem fail (cause : EmitFault) (location : Option Location) :
    Cuts (Emission.fail cause location : Emission α) := by
  refine fun reason => ⟨rfl, fun capacity => ⟨fun _ => rfl, fun h => ?_⟩⟩
  exact absurd h (Nat.not_lt_zero capacity)

theorem write (lines : List Line) : Cuts (Emission.write lines) := by
  refine fun reason => ⟨rfl, fun capacity => ⟨fun (h : linesSize lines ≤ capacity) => ?_,
    fun (h : capacity < linesSize lines) => ?_⟩⟩
  · exact if_pos (decide_eq_true h)
  · have hwrite : Emission.write lines ⟨some capacity, reason⟩ =
        ⟨lines, Device.after ⟨some capacity, reason⟩ lines, .error ⟨.output reason, none⟩⟩ :=
      if_neg (by simp [Device.fits, h])
    rw [hwrite]
    exact ⟨rfl, h, [], (List.append_nil _).symm⟩

theorem bind {e : Emission α} {f : α → Emission β} (he : e.Cuts) (hf : ∀ a, (f a).Cuts) :
    (e >>= f).Cuts := by
  intro reason
  obtain ⟨hdevice, hcut⟩ := he reason
  change (Emission.bind e f _).device = _ ∧
    ∀ capacity, (Emission.bind e f _).CutTo capacity reason (Emission.bind e f _)
  simp only [Emission.bind]
  cases houtcome : (e ⟨none, reason⟩).outcome with
  | error cause =>
    refine ⟨hdevice, fun capacity => ⟨fun hfits => ?_, fun hstops => ?_⟩⟩
    · rw [(hcut capacity).fits hfits, houtcome]
    · obtain ⟨hlimited, hcapacity, hlost⟩ := (hcut capacity).stops hstops
      rw [hlimited]
      exact ⟨rfl, hcapacity, hlost⟩
  | ok a =>
    dsimp only
    rw [hdevice]
    obtain ⟨hdevice', hcut'⟩ := hf a reason
    refine ⟨hdevice', fun capacity => ?_⟩
    by_cases hfirst : linesSize (e ⟨none, reason⟩).lines ≤ capacity
    · -- the first part fits, and the second one is cut to the room that is left
      rw [(hcut capacity).fits hfirst, houtcome]
      dsimp only
      have hsecond := hcut' (capacity - linesSize (e ⟨none, reason⟩).lines)
      refine ⟨fun hfits => ?_, fun hstops => ?_⟩
      · rw [linesSize_append] at hfits
        rw [hsecond.fits (by omega), linesSize_append, Nat.sub_sub]
      · rw [linesSize_append] at hstops
        obtain ⟨hlimited, hcapacity, lost, hlost⟩ := hsecond.stops (by omega)
        refine ⟨hlimited, ?_, lost, ?_⟩
        · rw [linesSize_append]
          omega
        · rw [hlost, List.append_assoc]
    · obtain ⟨hlimited, hcapacity, lost, hlost⟩ := (hcut capacity).stops (by omega)
      rw [hlimited]
      refine ⟨fun hfits => ?_, fun _ => ⟨rfl, hcapacity, lost ++ (f a ⟨none, reason⟩).lines, ?_⟩⟩
      · rw [linesSize_append] at hfits
        omega
      · rw [hlost, List.append_assoc]

theorem forM {ε : Type} {f : ε → Emission PUnit} (hf : ∀ x, (f x).Cuts) (xs : List ε) :
    (xs.forM f).Cuts := by
  induction xs with
  | nil => exact .pure ()
  | cons x xs ih => exact (hf x).bind fun _ => ih

end Cuts

end Emission

/-! ## Lowering -/

section Lowering

open Emission

variable (store : Store)

theorem getDef_cuts (id : DefId) : (getDef store id).Cuts := by
  unfold getDef
  split
  · exact .pure _
  · exact .fail _ _

theorem getBlock_cuts (id : BlockId) : (getBlock store id).Cuts := by
  unfold getBlock
  split
  · exact .pure _
  · exact .fail _ _

theorem getScope_cuts (id : BlockId) (role : String) : (getScope store id role).Cuts := by
  refine (getBlock_cuts store id).bind fun block => ?_
  split
  · exact .pure _
  · exact .fail _ _

theorem getAlternative_cuts (next : Option BlockId) : (getAlternative store next).Cuts := by
  unfold getAlternative
  split
  · exact .pure _
  · refine (getBlock_cuts store _).bind fun block => ?_
    split
    · exact .pure _
    · exact .fail _ _

theorem lowerExpression_cuts (token : Token) : (lowerExpression token).Cuts := by
  refine (Cuts.write _).bind fun _ => ?_
  split
  · exact .write _
  · split
    · exact .write _
    · exact .fail _ _
  · exact .fail _ _

theorem lowerReference_cuts (token : Token) (target : DefId) :
    (lowerReference store token target).Cuts :=
  (getDef_cuts store target).bind fun _ => .write _

theorem lowerCall_cuts (callee : BlockId) : (lowerCall store callee).Cuts := by
  refine (getBlock_cuts store callee).bind fun block => ?_
  split
  · refine (getDef_cuts store _).bind fun d => ?_
    split
    · exact .write _
    · exact .fail _ _
  · exact .fail _ _

section Junctions

variable {condition body : Emission Unit} (hcondition : condition.Cuts) (hbody : body.Cuts)

include hbody

theorem lowerAlternative_cuts (index : Nat) : (lowerAlternative body index).Cuts :=
  (Cuts.write _).bind fun _ => hbody.bind fun _ => .write _

include hcondition

theorem lowerBranch_cuts (alternative : Option Nat) (index : Nat) :
    (lowerBranch condition body alternative index).Cuts := by
  cases alternative <;>
    exact (Cuts.write _).bind fun _ => hcondition.bind fun _ =>
      (Cuts.write _).bind fun _ => hbody.bind fun _ => .write _

theorem lowerLoop_cuts (index : Nat) : (lowerLoop condition body index).Cuts :=
  (Cuts.write _).bind fun _ => hcondition.bind fun _ =>
    (Cuts.write _).bind fun _ => hbody.bind fun _ => .write _

end Junctions

theorem lowerBlock_cuts (levels : Nat) (id : BlockId) : (lowerBlock store levels id).Cuts := by
  induction levels generalizing id with
  | zero => exact .fail _ _
  | succ levels ih =>
    refine (getBlock_cuts store id).bind fun block => ?_
    cases block with
    | expression token => exact lowerExpression_cuts token
    | reference token target => exact lowerReference_cuts store token target
    | call location callee => exact lowerCall_cuts store callee
    | cast location types => exact .pure ()
    | scope bracket location children => exact .forM ih children
    | branch location condition body next index =>
      refine (getScope_cuts store condition _).bind fun conditions => ?_
      refine (getScope_cuts store body _).bind fun bodies => ?_
      refine (getAlternative_cuts store next).bind fun alternative => ?_
      exact lowerBranch_cuts (.forM ih conditions) (.forM ih bodies) alternative index
    | alternative location body index =>
      refine (getScope_cuts store body _).bind fun bodies => ?_
      exact lowerAlternative_cuts (.forM ih bodies) index
    | loop location condition body index =>
      refine (getScope_cuts store condition _).bind fun conditions => ?_
      refine (getScope_cuts store body _).bind fun bodies => ?_
      exact lowerLoop_cuts (.forM ih conditions) (.forM ih bodies) index
    | assembly token => exact .write _

theorem lowerFunction_cuts (levels : Nat) (d : Definition) (f : Function) :
    (lowerFunction store levels d f).Cuts := by
  refine (Cuts.write _).bind fun _ => (getScope_cuts store f.body _).bind fun body => ?_
  exact (Cuts.forM (lowerBlock_cuts store levels) body).bind fun _ => .write _

theorem lowerMemory_cuts (d : Definition) (capacity : Token) : (lowerMemory d capacity).Cuts := by
  unfold lowerMemory
  split
  · exact .write _
  · exact .fail _ _

theorem lowerDef_cuts (options : EmitOptions) (levels : Nat) (id : DefId) :
    (lowerDef options store levels id).Cuts := by
  refine (getDef_cuts store id).bind fun d => ?_
  split
  · exact .pure ()
  · refine (Cuts.write _).bind fun _ => ?_
    cases d.body with
    | function f => exact (lowerFunction_cuts store levels d f).bind fun _ => .write _
    | memory capacity => exact (lowerMemory_cuts d capacity).bind fun _ => .write _
    | string literal => exact (Cuts.write _).bind fun _ => .write _

/-- **Code generation writes the same lines to every device**, whatever the unit. -/
theorem lowerUnit_cuts (options : EmitOptions) (levels : Nat) (unit : List DefId) :
    (lowerUnit options store levels unit).Cuts := by
  refine (Cuts.write _).bind fun _ => ?_
  exact (Cuts.forM (lowerDef_cuts store options levels) unit).bind fun _ => .write _

end Lowering

/-! ## Units -/

theorem size_blocks_le_emitLevels (store : Store) (device : Device) :
    store.blocks.size ≤ emitLevels store device := by
  refine Nat.le_trans (Nat.le_succ _) ?_
  exact Nat.le_mul_of_pos_right _ (Nat.succ_pos _)

/-- **A device that takes so many bytes holds the code of a parsed unit if there is room for it.**
Otherwise it holds the first bytes of that code, as many as it takes, and the error says why it takes
no more and has no place. -/
theorem emitUnit_limited {options : ParseOptions} {before after : Store} {text : List Char}
    {unit : List DefId} (h : parseChars options before text = ⟨.ok unit, after⟩)
    (emitOptions : EmitOptions) (capacity : Nat) (reason : String) :
    ∃ full, emitUnit emitOptions after unit {} = ⟨full, .ok ()⟩ ∧
      emitUnit emitOptions after unit ⟨some capacity, reason⟩ =
        if full.length ≤ capacity then ⟨full, .ok ()⟩
        else ⟨full.take capacity, .error ⟨.output reason, none⟩⟩ := by
  obtain ⟨chunks, htree⟩ := unitTree_of_parseChars h
  have hgives (device : Device) := htree.gives emitOptions (size_blocks_le_emitLevels after device)
  refine ⟨assemblyBytes (unitLines emitOptions after unit chunks), ?_, ?_⟩
  · rw [emitUnit, hgives {} ""]
    rfl
  · have hcut := (lowerUnit_cuts after emitOptions
      (emitLevels after ⟨some capacity, reason⟩) unit reason).2 capacity
    rw [hgives ⟨some capacity, reason⟩ reason] at hcut
    rw [length_assemblyBytes]
    split
    · next hfits =>
      rw [emitUnit, hcut.fits hfits]
      refine congrArg (Written.mk · _) (List.take_of_length_le ?_)
      rwa [← length_assemblyBytes] at hfits
    · next hstops =>
      obtain ⟨houtcome, hcapacity, lost, hlost⟩ := hcut.stops (Nat.lt_of_not_le hstops)
      dsimp only at hlost
      rw [emitUnit, houtcome, hlost, assemblyBytes_append, List.take_append_of_le_length]
      · rfl
      · rw [length_assemblyBytes]
        exact Nat.le_of_lt hcapacity

/-- A device that ends inside a character of the name that the program starts with. -/
theorem emitUnit_limited_name :
    let parsed := parseChars { entry := "é" } (Store.empty 10) "func é { }".toList
    parsed.outcome = .ok [⟨0, 0⟩] ∧
      ∃ full, emitUnit { entry := "é" } parsed.store [⟨0, 0⟩] {} = ⟨full, .ok ()⟩ ∧
        full.take 16 = Utf8.encode "bits 64\nglobal ".toList ++ [0xC3] ∧
        emitUnit { entry := "é" } parsed.store [⟨0, 0⟩] ⟨some 16, "full"⟩ =
          ⟨full.take 16, .error ⟨.output "full", none⟩⟩ := by
  intro parsed
  have hparsed : parsed.outcome = .ok [⟨0, 0⟩] := by decide +kernel
  have hbytes : (emitUnit { entry := "é" } parsed.store [⟨0, 0⟩] {}).bytes.take 17 =
      Utf8.encode "bits 64\nglobal é".toList := by decide +kernel
  have hunit : parsed = ⟨.ok [⟨0, 0⟩], parsed.store⟩ := by rw [← hparsed]
  obtain ⟨full, hfull, hlimited⟩ := emitUnit_limited hunit { entry := "é" } 16 "full"
  rw [hfull] at hbytes
  have hlength : 17 ≤ full.length := by
    have htaken : min 17 full.length = 17 := by
      rw [← List.length_take, hbytes]
      decide +kernel
    omega
  rw [if_neg (by omega)] at hlimited
  refine ⟨hparsed, full, hfull, ?_, hlimited⟩
  rw [← Nat.min_eq_left (show 16 ≤ 17 by decide), ← List.take_take, hbytes]
  decide +kernel

end StackCompiler
