/-!
# A tree of files

Files and directories around one directory, by path. A path is followed part by part, and every part
but the last must name a directory. A path that begins with a slash starts at the root of all
directories, any other one at the first directory. Two dots lead to the directory above; the root
lies above itself. Names and paths can be too long.

* `FileTree`: files and directories.
* `FileTree.follow`: the place that a path leads to.
* `FileTree.read?`: the bytes of a file.
* `FileTree.create?`: an empty file, which replaces a file that was there.
* `FileTree.write?`: a file with given bytes.
-/

namespace StackCompiler

/-- Reasons for which the system refuses to open a file. -/
inductive SystemError where
  | notFound
  | notDirectory
  | isDirectory
  | nameTooLong
  deriving DecidableEq, Repr

/-- The reason in words. -/
def SystemError.text : SystemError → String
  | .notFound => "No such file or directory (os error 2)"
  | .notDirectory => "Not a directory (os error 20)"
  | .isDirectory => "Is a directory (os error 21)"
  | .nameTooLong => "File name too long (os error 36)"

/-- What stands at a place. -/
inductive FileEntry where
  | file (bytes : List UInt8)
  | directory
  deriving DecidableEq, Repr

/-- **A place**, as the names on the way to it from the first directory. Above the first directory
it begins with two dots, and below the root with a slash. -/
abbrev Place := List String

namespace Place

/-- The root of all directories. -/
def root : Place := ["/"]

/-- Is it a directory whatever files there are: the first one, one above it, or the root? -/
def isGiven (place : Place) : Bool := place == root || place.all (· == "..")

/-- The directory above a directory. -/
def above (place : Place) : Place :=
  if place = root then root
  else if place.all (· == "..") then ".." :: place
  else place.dropLast

end Place

/-- **Files and directories by place.** -/
structure FileTree where
  /-- Every place with what stands there, the given directories left out. -/
  entries : List (Place × FileEntry)
  deriving DecidableEq, Repr

namespace FileTree

/-- What stands at a place. -/
def entry? (tree : FileTree) (place : Place) : Option FileEntry :=
  if place.isGiven then some .directory else tree.entries.lookup place

/-- Puts an entry at a place instead of what stood there. -/
def put (tree : FileTree) (place : Place) (entry : FileEntry) : FileTree :=
  if tree.entries.any fun known => known.1 == place then
    ⟨tree.entries.map fun known => if known.1 == place then (place, entry) else known⟩
  else ⟨tree.entries ++ [(place, entry)]⟩

/-- How many bytes a name can have. -/
def nameLimit : Nat := 255

/-- How many bytes a path can have. -/
def pathLimit : Nat := 4095

/-- The place of a name in a directory. -/
def locate (here : Place) (name : String) : Except SystemError Place :=
  if name = "" ∨ name = "." then .ok here
  else if name = ".." then .ok here.above
  else if nameLimit < name.utf8ByteSize then .error .nameTooLong
  else .ok (here ++ [name])

/-- **Follows names from a directory.** Only the last may name nothing or a file. -/
def follow (tree : FileTree) (here : Place) : List String → Except SystemError Place
  | [] => .ok here
  | [name] => locate here name
  | name :: rest => do
    let next ← locate here name
    match tree.entry? next with
    | some .directory => follow tree next rest
    | some (.file _) => .error .notDirectory
    | none => .error .notFound

/-- The names in a path. Slashes at the beginning, in a row or at the end make empty ones. -/
def names (path : String) : List String := (path.toList.splitOn '/').map String.ofList

/-- The directory that a path starts at. -/
def start (path : String) : Place := if (names path).head? = some "" then .root else []

/-- Refuses a path that is too long. -/
def checkLength (path : String) : Except SystemError Unit :=
  if pathLimit < path.utf8ByteSize then .error .nameTooLong else .ok ()

/-- **The bytes of a file.** -/
def read? (tree : FileTree) (path : String) : Except SystemError (List UInt8) := do
  checkLength path
  match tree.entry? (← tree.follow (start path) (names path)) with
  | some (.file bytes) => return bytes
  | some .directory => .error .isDirectory
  | none => .error .notFound

/-- The names in a path up to the last that is not empty, and whether slashes follow it. -/
def splitSlashes (path : String) : List String × Bool :=
  let reversed := (names path).reverse
  let named := reversed.dropWhile (· == "")
  (named.reverse, named.length < reversed.length)

/-- **A file with given bytes**, in place of a file that was there. A name with a slash after it
stands for a directory, whether there is one or not. -/
def write? (tree : FileTree) (path : String) (bytes : List UInt8) :
    Except SystemError FileTree := do
  checkLength path
  let (named, slashes) := splitSlashes path
  if slashes then
    let _ ← tree.follow (start path) (named.dropLast ++ [""])
    .error .isDirectory
  else
    let place ← tree.follow (start path) named
    match tree.entry? place with
    | some .directory => .error .isDirectory
    | _ => return tree.put place (.file bytes)

/-- **An empty file**, in place of a file that was there. -/
def create? (tree : FileTree) (path : String) : Except SystemError FileTree := tree.write? path []

end FileTree

end StackCompiler
