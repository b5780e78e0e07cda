import StackCompiler.Assembly.Emission
import StackCompiler.Assembly.OperatorCode
import StackCompiler.Numeral.FloatFormat
import StackCompiler.Syntax.Store

/-!
# Lowering

Compiled programs keep their data on the hardware stack. Return addresses lie on a stack of their
own, whose top is kept in a cell. A call puts the data stack pointer into `rax`, switches to the
return stack and calls; the called function stores the return stack pointer and takes `rax` as its
data stack pointer. Returning does the same in the other direction.

* `lowerBlock`: the lines of a block.
* `lowerDef`: the lines of a definition.
* `lowerUnit`: the lines of a unit.
-/

namespace StackCompiler

/-- Options of code generation. -/
structure EmitOptions where
  /-- The symbol that the linker sees. -/
  entry : String := "main"
  /-- Are definitions left out that nothing refers to? -/
  strip : Bool := false
  deriving DecidableEq, Repr

/-- The size of the return stack in bytes. -/
def returnStackSize : Nat := 4096

/-! ## Handles -/

section Lookup

variable (store : Store)

/-- The definition of a handle. -/
def getDef (id : DefId) : Emission Definition :=
  match store.def? id with
  | some d => pure d
  | none => .fail (.danglingDefinition id.index) none

/-- The block of a handle. -/
def getBlock (id : BlockId) : Emission Block :=
  match store.block? id with
  | some block => pure block
  | none => .fail (.danglingBlock id.index) none

/-- The blocks inside the scope of a handle. -/
def getScope (id : BlockId) (role : String) : Emission (List BlockId) := do
  match ← getBlock store id with
  | .scope _ _ children => return children
  | other => .fail (.notScope role other.name) other.location

/-- The number of the alternative that a branch is joined to. -/
def getAlternative (next : Option BlockId) : Emission (Option Nat) := do
  match next with
  | none => return none
  | some id =>
    match ← getBlock store id with
    | .alternative _ _ index => return some index
    | other => .fail (.notAlternative other.name) other.location

end Lookup

/-! ## Leaves -/

open Instruction Register

/-- An instruction as a line. -/
abbrev code (i : Instruction) : Line := .instruction i

/-- A label at an end of a piece of a branch or loop. -/
abbrev mark (edge : Edge) (piece : Piece) (index : Nat) : Line := .label (.control edge piece index)

/-- **The number that a literal pushes.** Floating point numbers are pushed as bit patterns. -/
def literalImmediate? (token : Token) (type : NumberType) : Option Immediate :=
  match type with
  | .signed _ => token.int?.map .decimal
  | .unsigned _ => token.uint?.map fun n => .decimal n
  | .float32 =>
    token.float?.map fun bits => .pattern 8 (FloatFormat.convert .double .single bits.toNat)
  | .float64 => token.float?.map fun bits => .pattern 16 bits.toNat

/-- **The lines of an operator or literal.** -/
def lowerExpression (token : Token) : Emission Unit := do
  .write [.remark (.token token.kind.name token.index)]
  match token.kind with
  | .operator operator => .write (operator.code.map code)
  | .number type =>
    match literalImmediate? token type with
    | some value => .write [code (mov rax.whole (.immediate value)), code (push rax.whole)]
    | none => .fail (.noValue token.text) token.location
  | kind => .fail (.noCode kind.name) token.location

/-- **The lines of a name**: the address of what it stands for. -/
def lowerReference (store : Store) (token : Token) (target : DefId) : Emission Unit := do
  let d ← getDef store target
  .write [.remark (.token "ident" token.index), code (push (.address d.label))]

/-- **The lines of a call.** -/
def lowerCall (store : Store) (callee : BlockId) : Emission Unit := do
  match ← getBlock store callee with
  | .reference token target =>
    let d ← getDef store target
    if d.isFunction then
      .write
        [.remark (.token "call" token.index),
         code (mov rax.whole rsp.whole),
         code (mov rsp.whole (.cell .returnTop)),
         code (call d.label),
         code (mov (.cell .returnTop) rsp.whole),
         code (mov rsp.whole rax.whole)]
    else .fail (.calleeNotFunction d.name) token.location
  | other => .fail (.calleeNotName other.name) other.location

/-- **The lines of a line of assembly.** Bytes that are no text become replacement characters. -/
def lowerAssembly (token : Token) : Emission Unit :=
  .write
    [.remark (.token "asm" token.index),
     .verbatim (String.ofList (Utf8.decodeLossy (literalBytes token)))]

/-! ## Blocks -/

/-- Takes the top of the data stack and goes to a label if it is zero. -/
def testLines (target : Label) : List Line :=
  [code (pop rax), code (binary .test rax.whole rax.whole), code (jumpIfZero target)]

/-- **The lines of a branch**, given those of its condition and body. -/
def lowerBranch (condition body : Emission Unit) (alternative : Option Nat) (index : Nat) :
    Emission Unit := do
  let (skip, leave) := match alternative with
    | some number =>
      (Label.control .prior .alternativeBody number, Label.control .after .alternativeBody number)
    | none => (Label.control .after .branchBody index, Label.control .after .branchBody index)
  .write [.remark .branch, mark .prior .branchCondition index]
  condition
  .write (mark .after .branchCondition index :: testLines skip ++ [mark .prior .branchBody index])
  body
  .write [code (jump leave), mark .after .branchBody index]

/-- **The lines of an alternative**, given those of its body. -/
def lowerAlternative (body : Emission Unit) (index : Nat) : Emission Unit := do
  .write [.remark .alternative, mark .prior .alternativeBody index]
  body
  .write [mark .after .alternativeBody index]

/-- **The lines of a loop**, given those of its condition and body. -/
def lowerLoop (condition body : Emission Unit) (index : Nat) : Emission Unit := do
  .write [.remark .loop, mark .prior .loopCondition index]
  condition
  .write (mark .after .loopCondition index :: testLines (.control .after .loopBody index) ++
    [mark .prior .loopBody index])
  body
  .write [code (jump (.control .prior .loopCondition index)), mark .after .loopBody index]

/-- **The lines of a block**, at most `levels` levels deep. -/
def lowerBlock (store : Store) : (levels : Nat) → BlockId → Emission Unit
  | 0, _ => .fail .endless none
  | levels + 1, id => do
    match ← getBlock store id with
    | .expression token => lowerExpression token
    | .reference token target => lowerReference store token target
    | .call _ callee => lowerCall store callee
    | .cast _ _ => return
    | .scope _ _ children => children.forM (lowerBlock store levels)
    | .branch _ condition body next index =>
      let condition ← getScope store condition "if condition"
      let body ← getScope store body "if body"
      let alternative ← getAlternative store next
      lowerBranch (condition.forM (lowerBlock store levels)) (body.forM (lowerBlock store levels))
        alternative index
    | .alternative _ body index =>
      let body ← getScope store body "else body"
      lowerAlternative (body.forM (lowerBlock store levels)) index
    | .loop _ condition body index =>
      let condition ← getScope store condition "loop condition"
      let body ← getScope store body "loop body"
      lowerLoop (condition.forM (lowerBlock store levels)) (body.forM (lowerBlock store levels))
        index
    | .assembly token => lowerAssembly token

/-! ## Definitions -/

/-- The beginning of a function. The program starts with an empty return stack. -/
def prologue (d : Definition) (isEntry : Bool) : List Line :=
  if isEntry then
    [.remark .entry, .label d.label,
     code (mov rax.whole (.address .returnEnd)),
     code (mov (.cell .returnTop) rax.whole)]
  else
    [.remark .function, .label d.label,
     code (mov (.cell .returnTop) rsp.whole),
     code (mov rsp.whole rax.whole)]

/-- The end of a function. The program ends with a call of the operating system. -/
def epilogue (isEntry : Bool) : List Line :=
  if isEntry then
    [.remark .exit,
     code (mov rax.whole (.number 60)),
     code (mov rdi.whole (.number 0)),
     code syscall]
  else
    [.remark .functionEnd,
     code (mov rax.whole rsp.whole),
     code (mov rsp.whole (.cell .returnTop)),
     code ret]

/-- **The lines of a function.** -/
def lowerFunction (store : Store) (levels : Nat) (d : Definition) (f : Function) :
    Emission Unit := do
  .write (prologue d f.isEntry)
  let body ← getScope store f.body "function body"
  body.forM (lowerBlock store levels)
  .write (epilogue f.isEntry)

/-- **The lines of a memory region.** -/
def lowerMemory (d : Definition) (capacity : Token) : Emission Unit :=
  match capacityBytes? capacity with
  | some count => .write [.storage d.label (.bytes count)]
  | none => .fail (.noCapacity d.name) capacity.location

/-- The bytes that a string constant occupies. -/
def storedBytes (literal : Token) : List UInt8 :=
  literalBytes literal ++ if isTerminated literal then [0] else []

/-- **The lines of a definition.** -/
def lowerDef (options : EmitOptions) (store : Store) (levels : Nat) (id : DefId) :
    Emission Unit := do
  let d ← getDef store id
  if options.strip && !d.used then return
  .write [.inSection d.sectionName]
  match d.body with
  | .function f => lowerFunction store levels d f
  | .memory capacity => lowerMemory d capacity
  | .string literal => .write [.storage d.label (.values (storedBytes literal))]
  .write [.blank]

/-! ## Units -/

/-- The lines before all definitions. -/
def preamble (entry : String) : List Line := [.wordSize, .exported entry, .blank]

/-- The lines after all definitions: the return stack. -/
def postamble : List Line :=
  [.inSection ".bss", .storage .returnTop (.words 1),
   .storage .returnStack (.bytes returnStackSize), .storage .returnEnd (.values [])]

/-- **The lines of a unit**, with blocks at most `levels` levels deep. -/
def lowerUnit (options : EmitOptions) (store : Store) (levels : Nat) (unit : List DefId) :
    Emission Unit := do
  .write (preamble options.entry)
  unit.forM (lowerDef options store levels)
  .write postamble

end StackCompiler
