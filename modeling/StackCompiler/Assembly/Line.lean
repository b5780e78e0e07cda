import StackCompiler.Assembly.Instruction

/-!
# Lines of assembly

* `Line`: one line of an assembly text.
* `Line.text`: its spelling.
* `assemblyText`: a sequence of lines, each ended by a newline.
* `linesSize`: its size in bytes.
-/

namespace StackCompiler

/-- **Remarks that tell the reader of the assembly what comes next.** -/
inductive Remark where
  /-- The function the program starts with. -/
  | entry
  /-- Any other function. -/
  | function
  /-- The end of the program. -/
  | exit
  /-- The end of a function. -/
  | functionEnd
  /-- The code of a token, by name and number. -/
  | token (name : String) (index : Nat)
  /-- A branch. -/
  | branch
  /-- An alternative. -/
  | alternative
  /-- A loop. -/
  | loop
  deriving DecidableEq, Repr

/-- The remark in words. -/
def Remark.text : Remark → String
  | .entry => "entry"
  | .function => "func"
  | .exit => "exit"
  | .functionEnd => "func-ret"
  | .token name index => name ++ " (id: " ++ toString index ++ ")"
  | .branch => "if"
  | .alternative => "else"
  | .loop => "loop"

/-- Remarks that open a function stand at the margin. -/
def Remark.atMargin : Remark → Bool
  | .entry | .function => true
  | _ => false

/-- **What stands in memory at a label.** -/
inductive Storage where
  /-- Unset words of eight bytes. -/
  | words (count : Nat)
  /-- Unset bytes. -/
  | bytes (count : Nat)
  /-- Given bytes; without any, the label alone. -/
  | values (bytes : List UInt8)
  deriving DecidableEq, Repr

/-- The storage as it follows its label. -/
def Storage.text : Storage → String
  | .words count => " resq " ++ toString count
  | .bytes count => " resb " ++ toString count
  | .values [] => ""
  | .values (b :: rest) => " db " ++ ", ".intercalate ((b :: rest).map fun b => toString b.toNat)

/-- **One line of an assembly text.** -/
inductive Line where
  /-- The word size. -/
  | wordSize
  /-- The symbol that the linker sees. -/
  | exported (symbol : String)
  /-- An empty line. -/
  | blank
  /-- The beginning of a part of a section. -/
  | inSection (name : String)
  /-- A remark. -/
  | remark (remark : Remark)
  /-- A label for code. -/
  | label (label : Label)
  /-- A label for data. -/
  | storage (label : Label) (storage : Storage)
  /-- An instruction. -/
  | instruction (instruction : Instruction)
  /-- A line of the source program. -/
  | verbatim (text : String)
  deriving DecidableEq, Repr

/-- **The spelling of a line.** -/
def Line.text : Line → String
  | .wordSize => "bits 64"
  | .exported symbol => "global " ++ symbol
  | .blank => ""
  | .inSection name => "section " ++ name
  | .remark r => (if r.atMargin then "" else "\t") ++ ";; --- " ++ r.text ++ " --- "
  | .label l => l.name ++ ":"
  | .storage l s => "\t" ++ l.name ++ ":" ++ s.text
  | .instruction i => "\t" ++ i.text
  | .verbatim text => "\t" ++ text

/-- **The text of a sequence of lines.** -/
def assemblyText (lines : List Line) : String := String.join (lines.map fun l => l.text ++ "\n")

/-- The size of a sequence of lines in bytes. -/
def linesSize (lines : List Line) : Nat :=
  lines.foldr (fun l size => l.text.utf8ByteSize + 1 + size) 0

end StackCompiler
