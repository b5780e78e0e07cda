import StackCompiler.Command.Run

/-!
# The program

The command line over the files of the system.
-/

namespace StackCompiler

/-- Is it a code of the system, which can come with either sign? -/
def isSystemCode (code expected : UInt32) : Bool := code == expected || code == 0 - expected

/-- The reason of a failure in words. -/
def systemReason (e : IO.Error) : String :=
  match e with
  | .noFileOrDirectory .. => SystemError.notFound.text
  | .inappropriateType _ code _ =>
    if isSystemCode code 21 then SystemError.isDirectory.text else SystemError.notDirectory.text
  | .invalidArgument _ code _ =>
    if isSystemCode code 36 then SystemError.nameTooLong.text else toString e
  | _ => toString e

/-- Turns a failure into words. -/
def explained (action : IO α) : IO (Except String α) := do
  try return .ok (← action)
  catch e => return .error (systemReason e)

instance : Host IO where
  readFile path := explained do return (← IO.FS.readBinFile path).toList
  createFile path := explained (IO.FS.writeBinFile path ByteArray.empty)
  writeFile path bytes := explained (IO.FS.writeBinFile path ⟨bytes.toArray⟩)
  report line := IO.eprintln line
  timed action := do
    let started ← IO.monoNanosNow
    let value ← IO.lazyPure action
    return (value, ⟨(← IO.monoNanosNow) - started⟩)

/-- How the program is called. -/
def usage : String :=
  "usage: [OPTIONS] <SOURCE> <OUTPUT> [<SOURCE> <OUTPUT> ...]\n\n" ++
  "  -a, --arch <ARCH>    target architecture: " ++ Target.nasmX64Linux.name ++ "\n" ++
  "  -e, --entry <ENTRY>  name of the entry function (default: main)\n" ++
  "  -s, --strip          omit definitions that are never used\n" ++
  "  -d, --dump-ast       write an AST dump to <output>.ast.txt\n" ++
  "  -u, --unsafe         skip safety checks\n" ++
  "  -v, --verbose        print trace notes\n" ++
  "  -h, --help           print help\n" ++
  "  -V, --version        print version"

end StackCompiler

open StackCompiler in
/-- Reads the command line and runs it. -/
def main (arguments : List String) : IO UInt32 := do
  let request := Request.ofArguments arguments
  match request with
  | .information => IO.println usage
  | .misuse => IO.eprintln usage
  | .run .. => pure ()
  return (← runRequest request).toUInt32
