import StackCompiler.Syntax.Node

/-!
# Labels

* `Label`: every symbol that an assembly text can define.
* `Label.name`: its spelling.
* `Definition.label`: the symbol of a definition.
-/

namespace StackCompiler

/-- The two ends of a piece of code. -/
inductive Edge where
  | prior
  | after
  deriving DecidableEq, Repr

/-- The pieces of branches and loops that have labels. -/
inductive Piece where
  | branchCondition
  | branchBody
  | alternativeBody
  | loopCondition
  | loopBody
  deriving DecidableEq, Repr

/-- **A symbol of the assembly text.** -/
inductive Label where
  /-- The function the program starts with keeps its name. -/
  | entry (name : String)
  /-- Any other function. -/
  | function (index : Nat)
  /-- A memory region. -/
  | memory (index : Nat)
  /-- A string constant. -/
  | string (index : Nat)
  /-- An end of a piece of a branch or loop. -/
  | control (edge : Edge) (piece : Piece) (index : Nat)
  /-- The cell that holds the top of the return stack. -/
  | returnTop
  /-- The low end of the return stack. -/
  | returnStack
  /-- The high end of the return stack. -/
  | returnEnd
  deriving DecidableEq, Repr

/-- The end as part of a label. -/
def Edge.text : Edge → String
  | .prior => "prior"
  | .after => "after"

/-- The piece as part of a label. -/
def Piece.text : Piece → String
  | .branchCondition => "if_cond"
  | .branchBody => "if_body"
  | .alternativeBody => "else_body"
  | .loopCondition => "loop_cond"
  | .loopBody => "loop_body"

/-- **The spelling of a label.** -/
def Label.name : Label → String
  | .entry name => name
  | .function index => "func_" ++ toString index
  | .memory index => "mem_" ++ toString index
  | .string index => "str_" ++ toString index
  | .control edge piece index => edge.text ++ "_" ++ piece.text ++ "_" ++ toString index
  | .returnTop => "ret_stack_rsp"
  | .returnStack => "ret_stack"
  | .returnEnd => "ret_stack_end"

/-- **The symbol of a definition.** -/
def Definition.label (d : Definition) : Label :=
  match d.body with
  | .function f => if f.isEntry then .entry d.name else .function d.index
  | .memory _ => .memory d.index
  | .string _ => .string d.index

end StackCompiler
