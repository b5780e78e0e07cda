import StackCompiler.Command.Run

/-!
# Files under a run

What the files of a host look like from outside: an operation may fail, and then it may have changed
the file that it was for, but never another one.

* `FileMap`: the files of a host, and what its operations do to them.
* `compileFile_eq`: a pair is read first, and written then.
* **`FileMap.compileFile_ok`**: what a pair that succeeds leaves behind.
* **`FileMap.compileFile_rejected`**: a source that cannot be read or parsed changes no file.
-/

namespace StackCompiler

/-- **The files of a host.** Nothing is said about when an operation fails. -/
structure FileMap (σ : Type) [Host (StateM σ)] where
  /-- Files, whatever path leads to them. -/
  File : Type
  /-- The file that a path names. -/
  named : String → File
  /-- The bytes of a file, if there is one. -/
  bytes? : σ → File → Option (List UInt8)
  /-- A longer name is the name of another file. -/
  named_outlinePath : ∀ path, named (outlinePath path) ≠ named path
  read_bytes? : ∀ path s, bytes? (Host.readFile (m := StateM σ) path s).2 = bytes? s
  read_ok : ∀ {path s bytes}, (Host.readFile (m := StateM σ) path s).1 = .ok bytes →
    bytes? s (named path) = some bytes
  create_other : ∀ {path file} s, named path ≠ file →
    bytes? (Host.createFile (m := StateM σ) path s).2 file = bytes? s file
  write_other : ∀ {path file} bytes s, named path ≠ file →
    bytes? (Host.writeFile (m := StateM σ) path bytes s).2 file = bytes? s file
  write_ok : ∀ {path bytes s}, (Host.writeFile (m := StateM σ) path bytes s).1 = .ok () →
    bytes? (Host.writeFile (m := StateM σ) path bytes s).2 (named path) = some bytes
  report_bytes? : ∀ line s, bytes? (Host.report (m := StateM σ) line s).2 = bytes? s
  timed_bytes? : ∀ {α : Type} (action : Unit → α) s,
    bytes? (Host.timed (m := StateM σ) action s).2 = bytes? s
  timed_value : ∀ {α : Type} (action : Unit → α) s,
    (Host.timed (m := StateM σ) action s).1.1 = action ()

/-! ## Actions that can fail -/

section Actions

variable {σ α β : Type}

/-- What comes of an action in a state, and the state that it leads to. -/
def runIn (action : ExceptT String (StateM σ) α) (s : σ) : Except String α × σ := action.run s

theorem runIn_bind (x : ExceptT String (StateM σ) α) (f : α → ExceptT String (StateM σ) β) (s : σ) :
    runIn (x >>= f) s = match runIn x s with
      | (.ok a, s') => runIn (f a) s'
      | (.error message, s') => (.error message, s') := by
  change (ExceptT.bindCont f (runIn x s).1) (runIn x s).2 = _
  rcases runIn x s with ⟨e | a, s'⟩ <;> rfl

/-- Both parts of an action that succeeds succeed. -/
theorem runIn_bind_eq_ok {x : ExceptT String (StateM σ) α} {f : α → ExceptT String (StateM σ) β}
    {s s'' : σ} {b : β} : runIn (x >>= f) s = (.ok b, s'') ↔
      ∃ a s', runIn x s = (.ok a, s') ∧ runIn (f a) s' = (.ok b, s'') := by
  rw [runIn_bind]
  rcases runIn x s with ⟨e | a, s'⟩
  · constructor
    · intro h
      cases h
    · rintro ⟨_, _, h, _⟩
      cases h
  · constructor
    · intro h
      exact ⟨a, s', rfl, h⟩
    · rintro ⟨_, _, h, h'⟩
      cases h
      exact h'

theorem runIn_lift (action : StateM σ α) (s : σ) :
    runIn (ExceptT.lift action) s = (.ok (action s).1, (action s).2) := rfl

theorem runIn_attempt (what path : String) (action : StateM σ (Except String α)) (s : σ) :
    runIn (attempt what path action) s =
      ((action s).1.mapError fun reason => what ++ " " ++ path ++ ": " ++ reason, (action s).2) := rfl

theorem runIn_attempt_eq_ok {what path : String} {action : StateM σ (Except String α)} {s s' : σ}
    {a : α} : runIn (attempt what path action) s = (.ok a, s') ↔ action s = (.ok a, s') := by
  rw [runIn_attempt]
  rcases action s with ⟨e | b, s'⟩
  · constructor <;>
    · intro h
      cases h
  · exact Iff.rfl

end Actions

/-! ## One pair -/

section Pair

variable {m : Type → Type} [Monad m] [Host m]

/-- The outline of a unit, if it is wanted. -/
def writeOutline (settings : Settings) (output : String) (c : Compilation) : ExceptT String m Unit :=
  if settings.outline then
    attempt "failed to write" (outlinePath output)
      (Host.writeFile (outlinePath output) (Utf8.encode c.outlineText.toList))
  else pure ()

/-- The assembly of a unit. -/
def writeAssembly (settings : Settings) (source output : String) (c : Compilation) :
    ExceptT String m Unit := do
  attempt "failed to create" output (Host.createFile output)
  let emitted ← ExceptT.lift (Host.timed fun _ => c.emit settings {})
  showDiagnostics settings source (Compilation.emitFindings settings emitted.2 emitted.1)
  attempt "failed to write" output (Host.writeFile output emitted.1.bytes)
  match emitted.1.outcome with
  | .ok _ => return
  | .error e => throw (locatedText source (.emit e))

/-- **A source is read and parsed before anything is written**, and the outline is written before the
assembly. -/
theorem compileFile_eq [LawfulMonad m] (settings : Settings) (source output : String) :
    (compileFile settings source output : ExceptT String m Unit) =
      attempt "failed to read" source (Host.readFile source) >>= fun bytes =>
      ExceptT.lift (Host.timed fun _ => Compilation.ofBytes settings bytes) >>= fun parsed =>
      match parsed.1 with
      | .error e => throw (locatedText source e)
      | .ok c =>
        showDiagnostics settings source (c.parseFindings settings parsed.2) >>= fun _ =>
        writeOutline settings output c >>= fun _ => writeAssembly settings source output c := by
  unfold compileFile writeOutline
  cases settings.outline with
  | true => rfl
  | false =>
    simp only [Bool.false_eq_true, if_false, pure_bind]
    rfl

end Pair

/-- The source cannot be read, or cannot be decoded and parsed. -/
def Rejected {σ : Type} [Host (StateM σ)] (settings : Settings) (source : String) (s : σ) : Prop :=
  ∀ bytes c, (Host.readFile (m := StateM σ) source s).1 = .ok bytes →
    Compilation.ofBytes settings bytes ≠ .ok c

namespace FileMap

variable {σ : Type} [Host (StateM σ)] (F : FileMap σ)

/-- What is shown changes no file. -/
theorem showDiagnostics_bytes? (settings : Settings) (source : String) (found : List Diagnostic)
    (s : σ) : F.bytes? (runIn (showDiagnostics settings source found) s).2 = F.bytes? s := by
  unfold showDiagnostics
  induction found.filter fun d => settings.verbose || d.severity != .note generalizing s with
  | nil => rfl
  | cons d found ih =>
    rw [List.forM, runIn_bind, runIn_lift]
    exact (ih _).trans (F.report_bytes? _ s)

theorem timed_run {α : Type} (action : Unit → α) (s : σ) : ∃ elapsed s',
    runIn (ExceptT.lift (Host.timed action)) s = (.ok (action (), elapsed), s') ∧
      F.bytes? s' = F.bytes? s := by
  refine ⟨(Host.timed (m := StateM σ) action s).1.2, (Host.timed (m := StateM σ) action s).2, ?_,
    F.timed_bytes? action s⟩
  rw [runIn_lift, ← F.timed_value action s]

theorem writeOutline_ok {settings : Settings} {output : String} {c : Compilation} {s s' : σ} {u : Unit}
    (h : runIn (writeOutline settings output c) s = (.ok u, s')) (houtline : settings.outline = true) :
    F.bytes? s' (F.named (outlinePath output)) = some (Utf8.encode c.outlineText.toList) := by
  rw [writeOutline, if_pos houtline, runIn_attempt_eq_ok] at h
  have hwrite := F.write_ok (congrArg Prod.fst h)
  rwa [h] at hwrite

theorem writeAssembly_ok {settings : Settings} {source output : String} {c : Compilation} {s s' : σ}
    {u : Unit} (h : runIn (writeAssembly settings source output c) s = (.ok u, s')) :
    (c.emit settings {}).outcome = .ok () ∧
      F.bytes? s' (F.named output) = some (c.emit settings {}).bytes ∧
      ∀ file, F.named output ≠ file → F.bytes? s' file = F.bytes? s file := by
  obtain ⟨_, s₁, hcreate, h⟩ := runIn_bind_eq_ok.mp h
  obtain ⟨elapsed, s₂, htimed, hs₂⟩ := F.timed_run (fun _ => c.emit settings {}) s₁
  rw [runIn_bind, htimed] at h
  obtain ⟨_, s₃, hshow, h⟩ := runIn_bind_eq_ok.mp h
  obtain ⟨_, s₄, hwrite, h⟩ := runIn_bind_eq_ok.mp h
  rw [runIn_attempt_eq_ok] at hcreate hwrite
  cases houtcome : (c.emit settings {}).outcome with
  | error e =>
    rw [houtcome] at h
    cases h
  | ok u =>
    rw [houtcome] at h
    cases h
    refine ⟨rfl, ?_, fun file hfile => ?_⟩
    · have hbytes := F.write_ok (congrArg Prod.fst hwrite)
      rwa [hwrite] at hbytes
    · have hcreated := F.create_other s hfile
      have hshown := F.showDiagnostics_bytes? settings source
        (Compilation.emitFindings settings elapsed (c.emit settings {})) s₂
      have hwritten := F.write_other (c.emit settings {}).bytes s₃ hfile
      rw [hcreate] at hcreated
      rw [hshow] at hshown
      rw [hwrite] at hwritten
      rw [hwritten, hshown, hs₂, hcreated]

/-- **A pair that succeeds leaves the whole assembly of its source behind**, and the outline if it is
wanted. -/
theorem compileFile_ok {settings : Settings} {source output : String} {s s' : σ} {u : Unit}
    (h : runIn (compileFile settings source output) s = (.ok u, s')) :
    ∃ bytes c, F.bytes? s (F.named source) = some bytes ∧
      Compilation.ofBytes settings bytes = .ok c ∧ (c.emit settings {}).outcome = .ok () ∧
      F.bytes? s' (F.named output) = some (c.emit settings {}).bytes ∧
      (settings.outline = true →
        F.bytes? s' (F.named (outlinePath output)) = some (Utf8.encode c.outlineText.toList)) := by
  rw [compileFile_eq] at h
  obtain ⟨bytes, s₁, hread, h⟩ := runIn_bind_eq_ok.mp h
  obtain ⟨elapsed, s₂, htimed, -⟩ := F.timed_run (fun _ => Compilation.ofBytes settings bytes) s₁
  rw [runIn_bind, htimed] at h
  rw [runIn_attempt_eq_ok] at hread
  cases hparsed : Compilation.ofBytes settings bytes with
  | error e =>
    rw [hparsed] at h
    cases h
  | ok c =>
    rw [hparsed] at h
    obtain ⟨_, s₃, -, h⟩ := runIn_bind_eq_ok.mp h
    obtain ⟨_, s₄, houtline, h⟩ := runIn_bind_eq_ok.mp h
    obtain ⟨houtcome, hbytes, hother⟩ := F.writeAssembly_ok h
    refine ⟨bytes, c, F.read_ok (congrArg Prod.fst hread), hparsed, houtcome, hbytes, fun hwanted => ?_⟩
    rw [hother _ (F.named_outlinePath output).symm]
    exact F.writeOutline_ok houtline hwanted

/-- **A source that is rejected changes no file.** -/
theorem compileFile_rejected {settings : Settings} {source : String} (output : String) {s : σ}
    (h : Rejected settings source s) :
    F.bytes? (runIn (compileFile settings source output) s).2 = F.bytes? s := by
  have hs := F.read_bytes? source s
  rw [compileFile_eq, runIn_bind, runIn_attempt]
  cases hread : Host.readFile (m := StateM σ) source s with
  | mk result s₁ =>
    rw [Rejected, hread] at h
    rw [hread] at hs
    cases result with
    | error reason => exact hs
    | ok bytes =>
      obtain ⟨elapsed, s₂, htimed, hs₂⟩ :=
        F.timed_run (fun _ => Compilation.ofBytes settings bytes) s₁
      dsimp only [Except.mapError]
      rw [runIn_bind, htimed]
      cases hparsed : Compilation.ofBytes settings bytes with
      | error e => exact hs₂.trans hs
      | ok c => exact absurd hparsed (h bytes c rfl)

end FileMap

end StackCompiler
