import StackCompiler.Command.Arguments
import StackCompiler.Command.FileTree
import StackCompiler.Pipeline.Compilation

/-!
# Running the command

The paths of a command line are pairs of a source and an output. The pairs are compiled one after
the other, and the first that fails ends the run. A source is read and parsed before anything is
written.

* `Host`: what a run needs from its surroundings.
* `compileFile`: one pair.
* `runPairs`: all pairs.
* `runCommand`: a command line.
* `VirtualHost`: surroundings held in memory.
-/

namespace StackCompiler

/-- **What a run needs from its surroundings.** Failures are told in words. -/
class Host (m : Type → Type) where
  /-- The bytes of a file. -/
  readFile : String → m (Except String (List UInt8))
  /-- An empty file. -/
  createFile : String → m (Except String Unit)
  /-- A file with given bytes. -/
  writeFile : String → List UInt8 → m (Except String Unit)
  /-- A line for the user. -/
  report : String → m Unit
  /-- A value, and how long it took to find it. -/
  timed {α : Type} : (Unit → α) → m (α × Duration)

section Run

variable {m : Type → Type} [Monad m] [Host m]

/-- Does something that the system can refuse, and says what was refused. -/
def attempt (what path : String) (action : m (Except String α)) : ExceptT String m α :=
  ExceptT.mk do
    return (← action).mapError fun reason => what ++ " " ++ path ++ ": " ++ reason

/-- Shows diagnostics that belong to a source. Notes are for those who want them. -/
def showDiagnostics (settings : Settings) (source : String) (found : List Diagnostic) :
    ExceptT String m Unit :=
  (found.filter fun d => settings.verbose || d.severity != .note).forM fun d =>
    ExceptT.lift (Host.report (source ++ ":" ++ d.text))

/-- An error that belongs to a source. -/
def locatedText (source : String) (e : CompileError) : String :=
  match e.location? with
  | some _ => source ++ ":" ++ e.text
  | none => source ++ ": " ++ e.text

/-- The path of the outline that belongs to an output. -/
def outlinePath (output : String) : String := output ++ ".ast.txt"

/-- **Compiles one source to one output.** -/
def compileFile (settings : Settings) (source output : String) : ExceptT String m Unit := do
  let bytes ← attempt "failed to read" source (Host.readFile source)
  let (parsed, elapsed) ← ExceptT.lift (Host.timed fun _ => Compilation.ofBytes settings bytes)
  match parsed with
  | .error e => throw (locatedText source e)
  | .ok c =>
    showDiagnostics settings source (c.parseFindings settings elapsed)
    if settings.outline then
      attempt "failed to write" (outlinePath output)
        (Host.writeFile (outlinePath output) (Utf8.encode c.outlineText.toList))
    attempt "failed to create" output (Host.createFile output)
    let (written, elapsed) ← ExceptT.lift (Host.timed fun _ => c.emit settings {})
    showDiagnostics settings source (Compilation.emitFindings settings elapsed written)
    attempt "failed to write" output (Host.writeFile output written.bytes)
    match written.outcome with
    | .ok _ => return
    | .error e => throw (locatedText source (.emit e))

/-- **Compiles pairs of sources and outputs from left to right.** -/
def compilePairs (settings : Settings) : List String → ExceptT String m Unit
  | source :: output :: rest => do
    compileFile settings source output
    compilePairs settings rest
  | _ => return

/-- **Compiles the files at the given paths.** No file is touched if a path is left over. -/
def runPairs (settings : Settings) (paths : List String) : ExceptT String m Unit :=
  if paths.length % 2 = 0 then compilePairs settings paths
  else throw ("expected <source> <output> pairs, got " ++ toString paths.length ++ " paths")

/-- **Runs a request**, and gives the exit code: `0` for success, `1` for failure, `2` for a command
line that makes no sense. -/
def runRequest : Request → m Nat
  | .information => return 0
  | .misuse => return 2
  | .run settings paths => do
    match ← (runPairs settings paths).run with
    | .ok _ => return 0
    | .error message =>
      Host.report ("error: " ++ message)
      return 1

/-- **Runs a command line.** -/
def runCommand (arguments : List String) : m Nat := runRequest (Request.ofArguments arguments)

end Run

/-- **Surroundings held in memory**: files, and what was reported. Their clock stands still. -/
structure VirtualHost where
  /-- The files. -/
  tree : FileTree
  /-- What was reported, in order. -/
  reports : List String
  deriving DecidableEq, Repr

/-- Changes the files, unless the change is refused. -/
def VirtualHost.update (change : FileTree → Except SystemError FileTree) :
    StateM VirtualHost (Except String Unit) := do
  let host ← get
  match change host.tree with
  | .ok tree =>
    set { host with tree }
    return .ok ()
  | .error e => return .error e.text

instance : Host (StateM VirtualHost) where
  readFile path := do return ((← get).tree.read? path).mapError SystemError.text
  createFile path := VirtualHost.update (·.create? path)
  writeFile path bytes := VirtualHost.update (·.write? path bytes)
  report line := modify fun host => { host with reports := host.reports ++ [line] }
  timed action := return (action (), .zero)

/-- **Runs a command line on a tree of files.** -/
def runOnTree (arguments : List String) (tree : FileTree) : Nat × VirtualHost :=
  StateT.run (runCommand arguments : StateM VirtualHost Nat) ⟨tree, []⟩

end StackCompiler
