import StackCompiler.Pipeline.Settings

/-!
# Arguments of the command line

Options and paths stand in any order. Short switches can be joined after one dash, and the value of
an option can be attached to it or follow it. Two dashes end the options. Paths come in runs of at
least two; an option ends a run.

* `Request`: what the command line asks for.
* `Gathered`: what has been read of the arguments.
* `Gathered.read`: one more argument.
* `Request.ofArguments`: a whole command line.
-/

namespace StackCompiler

/-- **What a command line asks for.** -/
inductive Request where
  /-- Compile the files at these paths. -/
  | run (settings : Settings) (paths : List String)
  /-- Show the usage or the version. -/
  | information
  /-- The command line makes no sense. -/
  | misuse
  deriving DecidableEq, Repr

/-- Reasons to stop before the last argument. -/
inductive Stop where
  | information
  | misuse
  deriving DecidableEq, Repr

/-- Options that are on or off. -/
inductive Switch where
  | strip
  | outline
  | skipChecks
  | verbose
  deriving DecidableEq, Repr

/-- Options that take a value. -/
inductive ValueOption where
  | target
  | entry
  deriving DecidableEq, Repr

/-- The options there are. -/
inductive Choice where
  | switch (switch : Switch)
  | value (option : ValueOption)
  | information
  deriving DecidableEq, Repr

namespace Choice

/-- The option of a letter. -/
def ofShort? (c : Char) : Option Choice :=
  [('a', .value .target), ('e', .value .entry), ('s', .switch .strip), ('d', .switch .outline),
   ('u', .switch .skipChecks), ('v', .switch .verbose), ('h', .information),
   ('V', Choice.information)].lookup c

/-- The option of a word. -/
def ofLong? (word : String) : Option Choice :=
  [("arch", .value .target), ("entry", .value .entry), ("strip", .switch .strip),
   ("dump-ast", .switch .outline), ("unsafe", .switch .skipChecks), ("verbose", .switch .verbose),
   ("help", .information), ("version", Choice.information)].lookup word

end Choice

/-- **What has been read of the arguments.** -/
structure Gathered where
  /-- The target, if it was chosen. -/
  target : Option Target := none
  /-- The function the program starts with, if it was chosen. -/
  entry : Option String := none
  /-- The switches that are on. -/
  switches : List Switch := []
  /-- The paths of finished runs. -/
  paths : List String := []
  /-- The paths of the current run. -/
  current : List String := []
  /-- An option that waits for its value. -/
  awaiting : Option ValueOption := none
  /-- Have the options ended? -/
  pathsOnly : Bool := false
  deriving DecidableEq, Repr

namespace Gathered

/-- **Ends the current run of paths.** A run holds two paths at least, none of them empty, and no
option waits for its value. -/
def settle (g : Gathered) : Except Stop Gathered :=
  if g.awaiting.isSome then .error .misuse
  else if g.current.isEmpty then .ok g
  else if g.current.length < 2 ∨ g.current.contains "" then .error .misuse
  else .ok { g with paths := g.paths ++ g.current, current := [] }

/-- Turns a switch on, once. -/
def turnOn (g : Gathered) (s : Switch) : Except Stop Gathered :=
  if g.switches.contains s then .error .misuse else .ok { g with switches := s :: g.switches }

/-- Gives an option its value, once. -/
def assign (g : Gathered) (option : ValueOption) (value : String) : Except Stop Gathered :=
  match option with
  | .target =>
    match Target.ofName? value with
    | some target => if g.target.isSome then .error .misuse else .ok { g with target := some target }
    | none => .error .misuse
  | .entry => if g.entry.isSome then .error .misuse else .ok { g with entry := some value }

/-- The switches and options that are joined after one dash. -/
def readShort (g : Gathered) : List Char → Except Stop Gathered
  | [] => .ok g
  | c :: rest =>
    match Choice.ofShort? c with
    | none => .error .misuse
    | some (.switch s) => do readShort (← (← g.settle).turnOn s) rest
    | some .information => do
      let _ ← g.settle
      .error .information
    | some (.value option) => do
      let g ← g.settle
      match rest with
      | [] => .ok { g with awaiting := some option }
      | '=' :: value => g.assign option (String.ofList value)
      | value => g.assign option (String.ofList value)

/-- An option written as a word, with a value attached to it or not. -/
def readLong (g : Gathered) (word : List Char) : Except Stop Gathered :=
  let name := String.ofList (word.takeWhile (· != '='))
  let attached := (word.dropWhile (· != '=')).tail?.map String.ofList
  match Choice.ofLong? name, attached with
  | some (.switch s), none => do (← g.settle).turnOn s
  | some .information, none => do
    let _ ← g.settle
    .error .information
  | some (.value option), some value => do (← g.settle).assign option value
  | some (.value option), none => do return { ← g.settle with awaiting := some option }
  | _, _ => .error .misuse

/-- A value that an option waits for, or a path. -/
def readPlain (g : Gathered) (argument : String) : Except Stop Gathered :=
  match g.awaiting with
  | some option =>
    if g.pathsOnly then .error .misuse else assign { g with awaiting := none } option argument
  | none => .ok { g with current := g.current ++ [argument] }

/-- **One more argument.** A single dash is no option. -/
def read (g : Gathered) (argument : String) : Except Stop Gathered :=
  if g.pathsOnly then g.readPlain argument
  else match argument.toList with
    | ['-', '-'] => .ok { g with pathsOnly := true }
    | '-' :: '-' :: word => g.readLong word
    | '-' :: c :: rest => g.readShort (c :: rest)
    | _ => g.readPlain argument

/-- The settings that were chosen. -/
def settings (g : Gathered) : Settings where
  entry := g.entry.getD "main"
  target := g.target.getD .nasmX64Linux
  strip := g.switches.contains .strip
  outline := g.switches.contains .outline
  skipChecks := g.switches.contains .skipChecks
  verbose := g.switches.contains .verbose

end Gathered

/-- **What a command line asks for.** Without any path it makes no sense. -/
def Request.ofArguments (arguments : List String) : Request :=
  match (do (← arguments.foldlM Gathered.read {}).settle : Except Stop Gathered) with
  | .ok g => if g.paths.isEmpty then .misuse else .run g.settings g.paths
  | .error .information => .information
  | .error .misuse => .misuse

end StackCompiler
