import StackCompiler.Assembly.Lowering
import StackCompiler.Syntax.Parse

/-!
# Settings

* `Target`: the machines that code can be generated for.
* `Settings`: what the caller of the compiler chooses.
-/

namespace StackCompiler

/-- Machines that code can be generated for. -/
inductive Target where
  /-- Assembly for the 64-bit x86 machine under Linux. -/
  | nasmX64Linux
  deriving DecidableEq, Repr

/-- The name of a target. -/
def Target.name : Target → String
  | .nasmX64Linux => "nasm_x86_64_linux"

/-- The target with a given name. -/
def Target.ofName? (name : String) : Option Target :=
  if name = Target.nasmX64Linux.name then some .nasmX64Linux else none

/-- **What the caller chooses.** -/
structure Settings where
  /-- The function the program starts with, and the symbol that the linker sees. -/
  entry : String := "main"
  /-- The machine. -/
  target : Target := .nasmX64Linux
  /-- Are definitions left out that nothing refers to? -/
  strip : Bool := false
  /-- Is an outline of the unit wanted? -/
  outline : Bool := false
  /-- Are checks skipped? There are none yet. -/
  skipChecks : Bool := false
  /-- Are notes wanted? -/
  verbose : Bool := false
  deriving DecidableEq, Repr

namespace Settings

/-- The options of the parser. -/
def parseOptions (settings : Settings) : ParseOptions := { entry := settings.entry }

/-- The options of code generation. -/
def emitOptions (settings : Settings) : EmitOptions :=
  { entry := settings.entry, strip := settings.strip }

end Settings

end StackCompiler
