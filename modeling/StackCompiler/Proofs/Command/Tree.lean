import StackCompiler.Proofs.Command.Files

/-!
# The tree of files as a file map

A path that can be followed at all leads to one place, whatever files there are. So the surroundings
held in memory have files, one for each place.

* `FileTree.placeOf`: the place that a path names.
* `FileTree.read?_eq_ok`, `FileTree.write?_eq_ok`: reading and writing happen there.
* `FileTree.placeOf_outlinePath`: an outline has a place of its own.
* **`VirtualHost.files`**: the files of a host held in memory.
-/

namespace StackCompiler

namespace FileTree

/-! ## Places of paths -/

/-- The place of a name in a directory, however long the name is. -/
def enter (here : Place) (name : String) : Place :=
  if name = "" ∨ name = "." then here
  else if name = ".." then here.above
  else here ++ [name]

/-- **The place that a path names.** -/
def placeOf (path : String) : Place := (names path).foldl enter (start path)

theorem bind_eq_ok {α β : Type} {x : Except SystemError α} {f : α → Except SystemError β} {b : β} :
    (x >>= f) = .ok b ↔ ∃ a, x = .ok a ∧ f a = .ok b := by
  cases x with
  | error e =>
    constructor
    · intro h
      cases h
    · rintro ⟨_, h, _⟩
      cases h
  | ok a =>
    constructor
    · intro h
      exact ⟨a, rfl, h⟩
    · rintro ⟨_, h, h'⟩
      cases h
      exact h'

theorem locate_eq_ok {here place : Place} {name : String} (h : locate here name = .ok place) :
    place = enter here name := by
  unfold locate at h
  unfold enter
  split at h
  · next hhere =>
    rw [if_pos hhere]
    exact (Except.ok.inj h).symm
  · next hhere =>
    rw [if_neg hhere]
    split at h
    · next habove =>
      rw [if_pos habove]
      exact (Except.ok.inj h).symm
    · next habove =>
      rw [if_neg habove]
      split at h
      · cases h
      · exact (Except.ok.inj h).symm

/-- Names that can be followed lead to one place. -/
theorem follow_eq_ok {tree : FileTree} {here place : Place} {path : List String}
    (h : tree.follow here path = .ok place) : place = path.foldl enter here := by
  fun_induction follow tree here path with
  | case1 here =>
    cases h
    rfl
  | case2 here name => exact locate_eq_ok h
  | case3 here name rest _ ih =>
    obtain ⟨next, hnext, h⟩ := bind_eq_ok.mp h
    split at h
    · rw [ih next h, List.foldl_cons, locate_eq_ok hnext]
    · cases h
    · cases h

/-- The last name of a path can be made longer. -/
theorem splitOn_append (path : List Char) : ∃ front last, path.splitOn '/' = front ++ [last] ∧
    ∀ extension, '/' ∉ extension → (path ++ extension).splitOn '/' = front ++ [last ++ extension] := by
  induction path with
  | nil => exact ⟨[], [], rfl, fun extension h => List.splitOn_eq_singleton h⟩
  | cons c path ih =>
    obtain ⟨front, last, hpath, hmore⟩ := ih
    by_cases hc : (c == '/') = true
    · refine ⟨[] :: front, last, ?_, fun extension h => ?_⟩
      · rw [List.splitOn_cons_eq_if_modifyHead, if_pos hc, hpath, List.cons_append]
      · rw [List.cons_append, List.splitOn_cons_eq_if_modifyHead, if_pos hc, hmore extension h,
          List.cons_append]
    · cases front with
      | nil =>
        refine ⟨[], c :: last, ?_, fun extension h => ?_⟩
        · rw [List.splitOn_cons_eq_if_modifyHead, if_neg hc, hpath]
          rfl
        · rw [List.cons_append, List.splitOn_cons_eq_if_modifyHead, if_neg hc, hmore extension h]
          rfl
      | cons name front =>
        refine ⟨(c :: name) :: front, last, ?_, fun extension h => ?_⟩
        · rw [List.splitOn_cons_eq_if_modifyHead, if_neg hc, hpath]
          rfl
        · rw [List.cons_append, List.splitOn_cons_eq_if_modifyHead, if_neg hc, hmore extension h]
          rfl

theorem names_outlinePath (path : String) : ∃ front last, names path = front ++ [last] ∧
    names (outlinePath path) = front ++ [outlinePath last] := by
  obtain ⟨front, last, hpath, hmore⟩ := splitOn_append path.toList
  refine ⟨front.map String.ofList, String.ofList last, ?_, ?_⟩
  · rw [names, hpath, List.map_append]
    rfl
  · rw [names, outlinePath, String.toList_append, hmore _ (by decide), List.map_append]
    congr 1
    simp [outlinePath, String.ofList_append]

theorem length_outlinePath (name : String) : (outlinePath name).length = name.length + 8 := by
  rw [outlinePath, String.length_append]
  rfl

theorem outlinePath_ne (name : String) {short : String} (h : short.length < 8) :
    outlinePath name ≠ short := by
  intro heq
  have hlength := congrArg String.length heq
  rw [length_outlinePath] at hlength
  omega

theorem enter_outlinePath (here : Place) (name : String) :
    enter here (outlinePath name) = here ++ [outlinePath name] := by
  have hhere : ¬ (outlinePath name = "" ∨ outlinePath name = ".") :=
    not_or.mpr ⟨outlinePath_ne name (by decide), outlinePath_ne name (by decide)⟩
  rw [enter, if_neg hhere, if_neg (outlinePath_ne name (by decide))]

/-- Above a directory stands nothing that is in it. -/
theorem above_ne_append (here : Place) {name : String} (h : name ≠ "..") :
    here.above ≠ here ++ [name] := by
  intro heq
  have hlength := congrArg List.length heq
  rw [List.length_append, List.length_singleton] at hlength
  unfold Place.above at heq hlength
  split at heq
  · next hroot =>
    rw [if_pos hroot, hroot] at hlength
    cases hlength
  · next hroot =>
    rw [if_neg hroot] at hlength
    split at heq
    · next hdots =>
      -- every name on the way up is two dots
      have hmem : name ∈ ".." :: here := by rw [heq]; simp
      rcases List.mem_cons.mp hmem with hname | hname
      · exact h hname
      · exact h (by simpa using List.all_eq_true.mp hdots _ hname)
    · next hdots =>
      rw [if_neg hdots, List.length_dropLast] at hlength
      omega

/-- A longer name in a directory is another place than the shorter one. -/
theorem enter_outlinePath_ne (here : Place) (name : String) :
    enter here (outlinePath name) ≠ enter here name := by
  rw [enter_outlinePath, enter]
  split
  · simp
  · split
    · exact (above_ne_append here (outlinePath_ne name (by decide))).symm
    · intro heq
      have hname : outlinePath name = name := by simpa using heq
      have hlength := congrArg String.length hname
      rw [length_outlinePath] at hlength
      omega

/-- **An outline has a place of its own.** -/
theorem placeOf_outlinePath (path : String) : placeOf (outlinePath path) ≠ placeOf path := by
  obtain ⟨front, last, hnames, houtline⟩ := names_outlinePath path
  have hplace (start : Place) (name : String) :
      (front ++ [name]).foldl enter start = enter (front.foldl enter start) name := by simp
  unfold placeOf start
  rw [hnames, houtline, hplace, hplace]
  cases front with
  | cons first front => exact enter_outlinePath_ne _ last
  | nil =>
    simp only [List.nil_append, List.head?_cons, Option.some.injEq, List.foldl_nil]
    rw [if_neg (outlinePath_ne last (by decide))]
    by_cases hlast : last = ""
    · rw [hlast]
      decide
    · rw [if_neg hlast]
      exact enter_outlinePath_ne _ last

/-! ## Reading and writing -/

theorem lookup_replaced (entries : List (Place × FileEntry)) (place other : Place)
    (entry : FileEntry) :
    (entries.map fun known => if known.1 == place then (place, entry) else known).lookup other =
      if other = place then (entries.lookup place).map fun _ => entry else entries.lookup other := by
  induction entries with
  | nil => simp
  | cons known entries ih =>
    obtain ⟨key, value⟩ := known
    rw [List.map_cons, List.lookup_cons, List.lookup_cons, List.lookup_cons, ih]
    by_cases hkey : key = place
    · by_cases hother : other = place
      · simp [hkey, hother]
      · simp [hkey, hother, beq_false_of_ne hother]
    · by_cases hother : other = place
      · simp [hkey, hother, beq_false_of_ne (Ne.symm hkey)]
      · simp [hkey, hother]

theorem any_eq_isSome_lookup (entries : List (Place × FileEntry)) (place : Place) :
    (entries.any fun known => known.1 == place) = (entries.lookup place).isSome := by
  induction entries with
  | nil => rfl
  | cons known entries ih =>
    rw [List.any_cons, List.lookup_cons, ih, Bool.beq_comm]
    cases place == known.1 <;> rfl

/-- **An entry is put at a place and nowhere else.** -/
theorem entry?_put (tree : FileTree) (place other : Place) (entry : FileEntry) :
    FileTree.entry? (tree.put place entry) other =
      if other = place ∧ place.isGiven = false then some entry else tree.entry? other := by
  have hlookup : (tree.put place entry).entries.lookup other =
      if other = place then some entry else tree.entries.lookup other := by
    unfold put
    rw [any_eq_isSome_lookup]
    cases hknown : tree.entries.lookup place with
    | some known => rw [Option.isSome_some, if_pos rfl, lookup_replaced, hknown, Option.map_some]
    | none =>
      rw [Option.isSome_none, if_neg Bool.false_ne_true, List.lookup_append]
      by_cases hother : other = place
      · simp [hother, hknown]
      · simp [hother, List.lookup_cons, beq_false_of_ne hother]
  unfold entry?
  rw [hlookup]
  by_cases hother : other = place
  · subst hother
    cases other.isGiven <;> simp
  · simp [hother]

theorem isGiven_of_ne_directory {tree : FileTree} {place : Place}
    (h : tree.entry? place ≠ some .directory) : place.isGiven = false :=
  Bool.eq_false_iff.mpr fun hgiven => h (if_pos hgiven)

/-- What is read stands at the place of the path. -/
theorem read?_eq_ok {tree : FileTree} {path : String} {bytes : List UInt8}
    (h : tree.read? path = .ok bytes) : tree.entry? (placeOf path) = some (.file bytes) := by
  obtain ⟨_, -, h⟩ := bind_eq_ok.mp h
  obtain ⟨place, hplace, h⟩ := bind_eq_ok.mp h
  rw [placeOf, ← follow_eq_ok hplace]
  split at h
  · next hentry =>
    cases h
    exact hentry
  · cases h
  · cases h

theorem splitSlashes_eq {path : String} (h : (splitSlashes path).2 = false) :
    (splitSlashes path).1 = names path := by
  have hlength : (names path).reverse.length ≤
      ((names path).reverse.dropWhile (· == "")).length := by simpa [splitSlashes] using h
  have hall := (List.dropWhile_suffix (l := (names path).reverse) (· == "")).eq_of_length_le hlength
  rw [splitSlashes, hall, List.reverse_reverse]

/-- What is written is put at the place of the path. -/
theorem write?_eq_ok {tree tree' : FileTree} {path : String} {bytes : List UInt8}
    (h : tree.write? path bytes = .ok tree') :
    (placeOf path).isGiven = false ∧ tree' = tree.put (placeOf path) (.file bytes) := by
  obtain ⟨_, -, h⟩ := bind_eq_ok.mp h
  dsimp only at h
  split at h
  · obtain ⟨_, -, h⟩ := bind_eq_ok.mp h
    cases h
  · next hslashes =>
    obtain ⟨place, hplace, h⟩ := bind_eq_ok.mp h
    rw [splitSlashes_eq (Bool.eq_false_iff.mpr hslashes)] at hplace
    rw [placeOf, ← follow_eq_ok hplace]
    split at h
    · cases h
    · next hentry =>
      cases h
      exact ⟨isGiven_of_ne_directory hentry, rfl⟩

end FileTree

namespace VirtualHost

/-- The bytes of the file at a place. -/
def bytesAt (host : VirtualHost) (place : Place) : Option (List UInt8) :=
  match host.tree.entry? place with
  | some (.file bytes) => some bytes
  | _ => none

/-- A file is written, or all is as it was. -/
theorem writeFile_eq (path : String) (bytes : List UInt8) (host : VirtualHost) :
    Host.writeFile (m := StateM VirtualHost) path bytes host =
      match host.tree.write? path bytes with
      | .ok tree => (.ok (), { host with tree })
      | .error e => (.error e.text, host) := by
  change (match host.tree.write? path bytes with
    | .ok tree => set { host with tree } >>= fun _ => pure (.ok ())
    | .error e => pure (.error e.text) : StateM VirtualHost (Except String Unit)) host = _
  cases host.tree.write? path bytes <;> rfl

theorem bytesAt_writeFile {path : String} {bytes : List UInt8} {host : VirtualHost}
    (h : (Host.writeFile (m := StateM VirtualHost) path bytes host).1 = .ok ()) :
    bytesAt (Host.writeFile (m := StateM VirtualHost) path bytes host).2 (FileTree.placeOf path) =
      some bytes := by
  rw [writeFile_eq] at h ⊢
  cases hwrite : host.tree.write? path bytes with
  | error e =>
    rw [hwrite] at h
    cases h
  | ok tree =>
    obtain ⟨hgiven, rfl⟩ := FileTree.write?_eq_ok hwrite
    dsimp only [bytesAt]
    rw [FileTree.entry?_put, if_pos ⟨rfl, hgiven⟩]

theorem bytesAt_writeFile_of_ne {path : String} {place : Place} (bytes : List UInt8)
    (host : VirtualHost) (h : FileTree.placeOf path ≠ place) :
    bytesAt (Host.writeFile (m := StateM VirtualHost) path bytes host).2 place =
      host.bytesAt place := by
  rw [writeFile_eq]
  cases hwrite : host.tree.write? path bytes with
  | error e => rfl
  | ok tree =>
    obtain ⟨-, rfl⟩ := FileTree.write?_eq_ok hwrite
    dsimp only [bytesAt]
    rw [FileTree.entry?_put, if_neg fun ⟨heq, _⟩ => h heq.symm]

theorem bytesAt_readFile {path : String} {bytes : List UInt8} {host : VirtualHost}
    (h : (Host.readFile (m := StateM VirtualHost) path host).1 = .ok bytes) :
    host.bytesAt (FileTree.placeOf path) = some bytes := by
  change (host.tree.read? path).mapError SystemError.text = .ok bytes at h
  cases hread : host.tree.read? path with
  | error e =>
    rw [hread] at h
    cases h
  | ok found =>
    rw [hread] at h
    cases h
    rw [bytesAt, FileTree.read?_eq_ok hread]

/-- **The files of a host held in memory.** -/
def files : FileMap VirtualHost where
  File := Place
  named := FileTree.placeOf
  bytes? := bytesAt
  named_outlinePath := FileTree.placeOf_outlinePath
  read_bytes? _ _ := rfl
  read_ok := bytesAt_readFile
  create_other host h := bytesAt_writeFile_of_ne [] host h
  write_other := bytesAt_writeFile_of_ne
  write_ok := bytesAt_writeFile
  report_bytes? _ _ := rfl
  timed_bytes? _ _ := rfl
  timed_value _ _ := rfl

end VirtualHost

end StackCompiler
