import StackCompiler.Proofs.Command.Files

/-!
# Runs on record

Any host can keep a record of the operations on files. The record changes nothing else, and tells
which files an action can have changed.

* `FileOperation`, `Recorded`: a host with a record.
* `FileMap.Leads`: from one record to a later one.
* `FileMap.Mirrors`: an action that goes on record, and the action itself.
* **`FileMap.compileFile_mirrors`**: a pair works on its own paths only.
-/

namespace StackCompiler

/-- Operations on files. -/
inductive FileOperation where
  | read (path : String)
  | create (path : String)
  | write (path : String)
  deriving DecidableEq, Repr

namespace FileOperation

/-- The path of the file that it is for. -/
def path : FileOperation → String
  | .read path | .create path | .write path => path

/-- Can it change the file? -/
def changes : FileOperation → Bool
  | .read _ => false
  | _ => true

end FileOperation

/-- **A host with a record of the operations on files.** -/
structure Recorded (σ : Type) where
  /-- The state of the host. -/
  host : σ
  /-- The operations in order. -/
  operations : List FileOperation

/-- An action of the host that goes on record. -/
def Recorded.perform {σ α : Type} (operations : List FileOperation) (action : StateM σ α) :
    StateM (Recorded σ) α :=
  fun r => ((action r.host).1, ⟨(action r.host).2, r.operations ++ operations⟩)

instance {σ : Type} [Host (StateM σ)] : Host (StateM (Recorded σ)) where
  readFile path := Recorded.perform [.read path] (Host.readFile path)
  createFile path := Recorded.perform [.create path] (Host.createFile path)
  writeFile path bytes := Recorded.perform [.write path] (Host.writeFile path bytes)
  report line := Recorded.perform [] (Host.report line)
  timed action := Recorded.perform [] (Host.timed action)

namespace FileMap

variable {σ : Type} [Host (StateM σ)] (F : FileMap σ)

/-- The files of a host are the files of the host with a record. -/
def recorded : FileMap (Recorded σ) where
  File := F.File
  named := F.named
  bytes? r := F.bytes? r.host
  named_outlinePath := F.named_outlinePath
  read_bytes? path r := F.read_bytes? path r.host
  read_ok h := F.read_ok h
  create_other r h := F.create_other r.host h
  write_other bytes r h := F.write_other bytes r.host h
  write_ok h := F.write_ok h
  report_bytes? line r := F.report_bytes? line r.host
  timed_bytes? action r := F.timed_bytes? action r.host
  timed_value action r := F.timed_value action r.host

/-- An operation may have changed the file. -/
def Overwritten (operations : List FileOperation) (file : F.File) : Prop :=
  ∃ operation ∈ operations, operation.changes = true ∧ F.named operation.path = file

/-- **From one record to a later one**: more operations, all of them on given paths, and a file that
none of them was for is as it was. -/
def Leads (paths : List String) (r r' : Recorded σ) : Prop :=
  ∃ more, r'.operations = r.operations ++ more ∧ (∀ operation ∈ more, operation.path ∈ paths) ∧
    ∀ file, ¬ F.Overwritten more file → F.bytes? r'.host file = F.bytes? r.host file

section Leads

variable {F} {paths paths' : List String} {r r' r'' : Recorded σ}

theorem Leads.refl : F.Leads paths r r :=
  ⟨[], (List.append_nil _).symm, List.forall_mem_nil _, fun _ _ => rfl⟩

theorem Leads.trans (h : F.Leads paths r r') (h' : F.Leads paths r' r'') : F.Leads paths r r'' := by
  obtain ⟨more, hmore, hpaths, hfiles⟩ := h
  obtain ⟨more', hmore', hpaths', hfiles'⟩ := h'
  refine ⟨more ++ more', ?_, List.forall_mem_append.mpr ⟨hpaths, hpaths'⟩, fun file hfile => ?_⟩
  · rw [hmore', hmore, List.append_assoc]
  · have hfirst : ¬ F.Overwritten more file := fun ⟨operation, hmem, h⟩ =>
      hfile ⟨operation, List.mem_append_left _ hmem, h⟩
    have hsecond : ¬ F.Overwritten more' file := fun ⟨operation, hmem, h⟩ =>
      hfile ⟨operation, List.mem_append_right _ hmem, h⟩
    rw [hfiles' file hsecond, hfiles file hfirst]

theorem Leads.mono (h : F.Leads paths r r') (hpaths : paths ⊆ paths') : F.Leads paths' r r' := by
  obtain ⟨more, hmore, hallowed, hfiles⟩ := h
  exact ⟨more, hmore, fun operation hmem => hpaths (hallowed operation hmem), hfiles⟩

end Leads

/-- **An action on record, and the action itself.** -/
structure Mirrors {α : Type} (paths : List String) (x : ExceptT String (StateM (Recorded σ)) α)
    (y : ExceptT String (StateM σ) α) : Prop where
  same : ∀ r, ((runIn x r).1, (runIn x r).2.host) = runIn y r.host
  leads : ∀ r, F.Leads paths r (runIn x r).2

section Mirrors

variable {F} {α β : Type} {paths : List String}

theorem Mirrors.bind {x : ExceptT String (StateM (Recorded σ)) α} {y : ExceptT String (StateM σ) α}
    {f : α → ExceptT String (StateM (Recorded σ)) β} {g : α → ExceptT String (StateM σ) β}
    (h : F.Mirrors paths x y) (hf : ∀ a, F.Mirrors paths (f a) (g a)) :
    F.Mirrors paths (x >>= f) (y >>= g) where
  same r := by
    rw [runIn_bind, runIn_bind, ← h.same r]
    rcases runIn x r with ⟨message | a, r'⟩
    · rfl
    · exact (hf a).same r'
  leads r := by
    have hx := h.leads r
    rw [runIn_bind]
    rcases hrun : runIn x r with ⟨message | a, r'⟩
    · rw [hrun] at hx
      exact hx
    · rw [hrun] at hx
      exact hx.trans ((hf a).leads r')

theorem Mirrors.mono {paths' : List String} {x : ExceptT String (StateM (Recorded σ)) α}
    {y : ExceptT String (StateM σ) α} (h : F.Mirrors paths x y) (hpaths : paths ⊆ paths') :
    F.Mirrors paths' x y :=
  ⟨h.same, fun r => (h.leads r).mono hpaths⟩

theorem Mirrors.pure (a : α) : F.Mirrors paths (Pure.pure a) (Pure.pure a) :=
  ⟨fun _ => rfl, fun _ => .refl⟩

theorem Mirrors.throw (message : String) :
    F.Mirrors paths (MonadExcept.throw message : ExceptT String (StateM (Recorded σ)) α)
      (MonadExcept.throw message) :=
  ⟨fun _ => rfl, fun _ => .refl⟩

/-- One operation goes on record. -/
theorem Mirrors.attempt (what : String) {path : String} {operation : FileOperation}
    {action : StateM σ (Except String α)} (hpath : operation.path ∈ paths)
    (hfile : ∀ s file, ¬ F.Overwritten [operation] file →
      F.bytes? (action s).2 file = F.bytes? s file) :
    F.Mirrors paths (StackCompiler.attempt what path (Recorded.perform [operation] action))
      (StackCompiler.attempt what path action) :=
  ⟨fun _ => rfl, fun r => ⟨[operation], rfl, by simpa using hpath, fun file h => hfile r.host file h⟩⟩

/-- What changes no file needs no record. -/
theorem Mirrors.lift {action : StateM σ α} (h : ∀ s, F.bytes? (action s).2 = F.bytes? s) :
    F.Mirrors paths (ExceptT.lift (Recorded.perform [] action)) (ExceptT.lift action) :=
  ⟨fun _ => rfl, fun r => ⟨[], rfl, List.forall_mem_nil _, fun file _ => congrFun (h r.host) file⟩⟩

end Mirrors

variable {paths : List String}

theorem readFile_mirrors (what : String) {path : String} (h : path ∈ paths) :
    F.Mirrors paths (attempt what path (Host.readFile path)) (attempt what path (Host.readFile path)) :=
  .attempt what h fun s file _ => congrFun (F.read_bytes? path s) file

theorem createFile_mirrors (what : String) {path : String} (h : path ∈ paths) :
    F.Mirrors paths (attempt what path (Host.createFile path))
      (attempt what path (Host.createFile path)) :=
  .attempt what h fun s _ hfile =>
    F.create_other s fun heq => hfile ⟨_, List.mem_singleton_self _, rfl, heq⟩

theorem writeFile_mirrors (what : String) {path : String} (bytes : List UInt8) (h : path ∈ paths) :
    F.Mirrors paths (attempt what path (Host.writeFile path bytes))
      (attempt what path (Host.writeFile path bytes)) :=
  .attempt what h fun s _ hfile =>
    F.write_other bytes s fun heq => hfile ⟨_, List.mem_singleton_self _, rfl, heq⟩

theorem timed_mirrors {α : Type} (action : Unit → α) :
    F.Mirrors paths (ExceptT.lift (Host.timed action)) (ExceptT.lift (Host.timed action)) :=
  .lift (F.timed_bytes? action)

theorem showDiagnostics_mirrors (settings : Settings) (source : String) (found : List Diagnostic) :
    F.Mirrors paths (showDiagnostics settings source found)
      (showDiagnostics settings source found) := by
  unfold showDiagnostics
  induction found.filter fun d => settings.verbose || d.severity != .note with
  | nil => exact .pure ()
  | cons d found ih => exact (Mirrors.lift (F.report_bytes? _)).bind fun _ => ih

theorem writeOutline_mirrors (settings : Settings) {output : String} (c : Compilation)
    (h : outlinePath output ∈ paths) :
    F.Mirrors paths (writeOutline settings output c) (writeOutline settings output c) := by
  unfold writeOutline
  split
  · exact F.writeFile_mirrors _ _ h
  · exact .pure ()

theorem writeAssembly_mirrors (settings : Settings) (source : String) {output : String}
    (c : Compilation) (h : output ∈ paths) :
    F.Mirrors paths (writeAssembly settings source output c)
      (writeAssembly settings source output c) := by
  refine (F.createFile_mirrors _ h).bind fun _ => (F.timed_mirrors _).bind fun emitted => ?_
  refine (F.showDiagnostics_mirrors settings source _).bind fun _ => ?_
  refine (F.writeFile_mirrors _ _ h).bind fun _ => ?_
  split
  · exact .pure ()
  · exact .throw _

end FileMap

/-- The paths that a pair of a source and an output is about. -/
def pairPaths (pair : String × String) : List String := [pair.1, outlinePath pair.2, pair.2]

namespace FileMap

variable {σ : Type} [Host (StateM σ)] (F : FileMap σ)

/-- **A pair works on its own paths only.** -/
theorem compileFile_mirrors (settings : Settings) (source output : String) :
    F.Mirrors (pairPaths (source, output)) (compileFile settings source output)
      (compileFile settings source output) := by
  rw [compileFile_eq, compileFile_eq]
  refine (F.readFile_mirrors _ (by simp [pairPaths])).bind fun bytes => ?_
  refine (F.timed_mirrors _).bind fun parsed => ?_
  split
  · exact .throw _
  · next c _ =>
    refine (F.showDiagnostics_mirrors settings source _).bind fun _ => ?_
    refine (F.writeOutline_mirrors settings c (by simp [pairPaths])).bind fun _ => ?_
    exact F.writeAssembly_mirrors settings source c (by simp [pairPaths])

end FileMap

end StackCompiler
