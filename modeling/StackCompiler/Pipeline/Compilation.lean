import StackCompiler.Assembly.Output
import StackCompiler.Pipeline.Diagnostic
import StackCompiler.Pipeline.Duration
import StackCompiler.Pipeline.Settings
import StackCompiler.Syntax.Outline

/-!
# Compilation

A source is decoded, parsed and lowered. Warnings are given when the unit has been parsed. The time
that a stage takes is measured outside and shown in its note; nothing else depends on it.

* `Compilation`: a parsed unit with its store.
* `Compilation.ofBytes`: decoding and parsing.
* `Compilation.emit`: code generation.
* `Compilation.parseFindings`, `Compilation.emitFindings`: what there is to say after each of them.
* `compile`: both.
-/

namespace StackCompiler

/-- **An error of some stage.** -/
inductive CompileError where
  /-- The source cannot be decoded. -/
  | lex (error : LexError)
  /-- The source cannot be parsed. -/
  | parse (error : ParseError)
  /-- The unit cannot be written. -/
  | emit (error : EmitError)
  deriving DecidableEq, Repr

namespace CompileError

/-- Where the error belongs, if anywhere. -/
def location? : CompileError → Option Location
  | .lex e => some e.location
  | .parse e => e.location
  | .emit e => e.location

/-- **Is it a mistake of the compiler and not of the source or output?** -/
def isInternal : CompileError → Bool
  | .lex e => e.cause.kind.isInternal
  | .parse e =>
    match e.cause with
    | .lexical cause => cause.kind.isInternal
    | _ => false
  | .emit e => e.cause.kind.isInternal

/-- The error as it is shown. -/
def text : CompileError → String
  | .lex e => e.text
  | .parse e => e.text
  | .emit e => e.text

end CompileError

/-- **A parsed unit with its store.** -/
structure Compilation where
  /-- The nodes. -/
  store : Store
  /-- The definitions in order. -/
  unit : List DefId

namespace Compilation

/-- The definitions of the unit. -/
def definitions (c : Compilation) : List Definition := c.unit.filterMap c.store.def?

/-- The warning about a definition that nothing refers to. -/
def unusedWarning (d : Definition) : Diagnostic :=
  .warning (d.keyword ++ " '" ++ d.name ++ "' is never used") d.location

/-- **The warnings about a unit.** Definitions that are left out anyway are not reported. -/
def warnings (settings : Settings) (c : Compilation) : List Diagnostic :=
  let unused := if settings.strip then [] else c.definitions.filter fun d => !d.used
  let missing := if c.definitions.any Definition.isEntry then []
    else [Diagnostic.warning ("entry function '" ++ settings.entry ++ "' is not defined") none]
  unused.map unusedWarning ++ missing

/-- The note about a unit that was parsed in a given time. -/
def parseNote (elapsed : Duration) (c : Compilation) : Diagnostic :=
  .note ("parsed " ++ toString c.unit.length ++ " definitions (" ++ toString c.store.size ++
    " nodes) in " ++ elapsed.text)

/-- The note about code that was written in a given time. -/
def emitNote (settings : Settings) (elapsed : Duration) : Diagnostic :=
  .note ("emitted " ++ settings.target.name ++ " assembly in " ++ elapsed.text)

/-- **Decodes and parses a source.** -/
def ofBytes (settings : Settings) (source : List UInt8) : Except CompileError Compilation :=
  match Lexer.ofBytes source with
  | .error e => .error (.lex e)
  | .ok lexer =>
    let parsed := parseLexer settings.parseOptions (Store.empty Store.defaultMaxNodes) lexer
    match parsed.outcome with
    | .error e => .error (.parse e)
    | .ok unit => .ok ⟨parsed.store, unit⟩

/-- **What there is to say about a parsed unit**: the note, if notes are wanted, and the warnings. -/
def parseFindings (settings : Settings) (elapsed : Duration) (c : Compilation) : List Diagnostic :=
  (if settings.verbose then [c.parseNote elapsed] else []) ++ c.warnings settings

/-- **Writes the code of a unit to a device.** -/
def emit (settings : Settings) (c : Compilation) (device : Device) : Written :=
  emitUnit settings.emitOptions c.store c.unit device

/-- **What there is to say about written code**: the note, if all of it was written and notes are
wanted. -/
def emitFindings (settings : Settings) (elapsed : Duration) (written : Written) :
    List Diagnostic :=
  match written.outcome with
  | .ok _ => if settings.verbose then [emitNote settings elapsed] else []
  | .error _ => []

/-- The outline of a unit. -/
def outlineText (c : Compilation) : String := outline c.store c.unit

end Compilation

/-- **The outcome of compiling a source.** -/
structure Compiled where
  /-- The parsed unit, or the first error. -/
  outcome : Except CompileError Compilation
  /-- What was written. -/
  bytes : List UInt8
  /-- What was found on the way. -/
  diagnostics : List Diagnostic

/-- The time that each stage takes. -/
structure StageTimes where
  /-- Decoding and parsing. -/
  parse : Duration := .zero
  /-- Code generation. -/
  emit : Duration := .zero
  deriving DecidableEq, Repr

/-- **Compiles a source to a device.** -/
def compile (settings : Settings) (source : List UInt8) (device : Device)
    (times : StageTimes := {}) : Compiled :=
  match Compilation.ofBytes settings source with
  | .error e => ⟨.error e, [], []⟩
  | .ok c =>
    let written := c.emit settings device
    let outcome := match written.outcome with
      | .ok _ => .ok c
      | .error e => .error (.emit e)
    ⟨outcome, written.bytes,
      c.parseFindings settings times.parse ++
        Compilation.emitFindings settings times.emit written⟩

end StackCompiler
