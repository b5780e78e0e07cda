import StackCompiler.Text.Location
import StackCompiler.Text.Escape
import StackCompiler.Text.Utf8
import StackCompiler.Text.Alphabetic
import StackCompiler.Numeral.Digits
import StackCompiler.Numeral.FloatFormat
import StackCompiler.Numeral.Magnitude
import StackCompiler.Token.Vocabulary
import StackCompiler.Token.Kind
import StackCompiler.Token.Basic
import StackCompiler.Token.Fault
import StackCompiler.Token.Scanner
import StackCompiler.Token.Number
import StackCompiler.Token.Quoted
import StackCompiler.Token.Trivia
import StackCompiler.Token.Lexer
import StackCompiler.Syntax.Node
import StackCompiler.Syntax.Store
import StackCompiler.Syntax.Outline
import StackCompiler.Syntax.Error
import StackCompiler.Syntax.Open
import StackCompiler.Syntax.Parse
import StackCompiler.Assembly.Label
import StackCompiler.Assembly.Instruction
import StackCompiler.Assembly.Line
import StackCompiler.Assembly.OperatorCode
import StackCompiler.Assembly.Error
import StackCompiler.Assembly.Emission
import StackCompiler.Assembly.Lowering
import StackCompiler.Assembly.Output
import StackCompiler.Pipeline.Diagnostic
import StackCompiler.Pipeline.Duration
import StackCompiler.Pipeline.Settings
import StackCompiler.Pipeline.Compilation
import StackCompiler.Command.Arguments
import StackCompiler.Command.FileTree
import StackCompiler.Command.Run
import StackCompiler.Main
import StackCompiler.Proofs.Symbol.Spelling
import StackCompiler.Proofs.Token.Comments
import StackCompiler.Proofs.Token.Faithful
import StackCompiler.Proofs.Grammar.Phrase
import StackCompiler.Proofs.Grammar.Build
import StackCompiler.Proofs.Grammar.Steps
import StackCompiler.Proofs.Grammar.Simulation
import StackCompiler.Proofs.Grammar.Recognition
import StackCompiler.Proofs.Grammar.Invariant
import StackCompiler.Proofs.Grammar.Acceptance
import StackCompiler.Proofs.Grammar.Faults
import StackCompiler.Proofs.Tree.Forest
import StackCompiler.Proofs.Tree.Growth
import StackCompiler.Proofs.Tree.Unit
import StackCompiler.Proofs.Tree.Usage
import StackCompiler.Proofs.Symbol.Defined
import StackCompiler.Proofs.Tree.Ownership
import StackCompiler.Proofs.Tree.Reference
import StackCompiler.Proofs.Lowering.Lines
import StackCompiler.Proofs.Lowering.Unit
import StackCompiler.Proofs.Lowering.Outcome
import StackCompiler.Proofs.Execution.Machine
import StackCompiler.Proofs.Execution.Segment
import StackCompiler.Proofs.Execution.Placement
import StackCompiler.Proofs.Execution.Labels
import StackCompiler.Proofs.Execution.Refinement
import StackCompiler.Proofs.Symbol.Closure
import StackCompiler.Proofs.Symbol.Entry
import StackCompiler.Proofs.Execution.Processor
import StackCompiler.Proofs.Execution.Program
import StackCompiler.Proofs.Execution.CodeShape
import StackCompiler.Proofs.Execution.Protocol
import StackCompiler.Proofs.Execution.ReturnStack
import StackCompiler.Proofs.Execution.Separation
import StackCompiler.Proofs.Token.Partition
import StackCompiler.Proofs.Token.Texts
import StackCompiler.Proofs.Token.Locality
import StackCompiler.Proofs.Text.Utf8
import StackCompiler.Proofs.Token.Words
import StackCompiler.Proofs.Layout.Bare
import StackCompiler.Proofs.Layout.Mirror
import StackCompiler.Proofs.Layout.Compiling
import StackCompiler.Proofs.Fault.Budget
import StackCompiler.Proofs.Fault.Completion
import StackCompiler.Proofs.Fault.FirstFault
import StackCompiler.Proofs.Tree.ReadBack
import StackCompiler.Proofs.Store.Renaming
import StackCompiler.Proofs.Store.Transport
import StackCompiler.Proofs.Store.Reading
import StackCompiler.Proofs.Store.Frame
import StackCompiler.Proofs.Store.Independence
import StackCompiler.Proofs.Store.Generation
import StackCompiler.Proofs.Lowering.Strip
import StackCompiler.Proofs.Token.Joining
import StackCompiler.Proofs.Lowering.Appending
import StackCompiler.Proofs.Chain.Alike
import StackCompiler.Proofs.Chain.Code
import StackCompiler.Proofs.Chain.Continuation
import StackCompiler.Proofs.Chain.Text
import StackCompiler.Proofs.Token.Respacing
import StackCompiler.Proofs.Chain.WrittenOut
import StackCompiler.Proofs.Grammar.Limits
import StackCompiler.Proofs.Lowering.Capacity
import StackCompiler.Proofs.Command.Files
import StackCompiler.Proofs.Command.Journal
import StackCompiler.Proofs.Command.Tree
import StackCompiler.Proofs.Command.Stopping
import StackCompiler.Proofs.Token.Lookahead
import StackCompiler.Proofs.Grammar.Reading
import StackCompiler.Proofs.Token.Spelling
import StackCompiler.Proofs.Token.Numerals
import StackCompiler.Proofs.Numeral.Digits
import StackCompiler.Proofs.Numeral.Rounding
import StackCompiler.Proofs.Token.Integers
import StackCompiler.Proofs.Token.Strings
import StackCompiler.Proofs.Token.Reals
import StackCompiler.Proofs.Tree.Provenance
import StackCompiler.Proofs.Lowering.Leaves
import StackCompiler.Proofs.Lowering.Constants
import StackCompiler.Proofs.Lowering.Verbatim
import StackCompiler.Proofs.Token.Places
import StackCompiler.Proofs.Text.Decoding
import StackCompiler.Proofs.Execution.Straight
import StackCompiler.Proofs.Execution.Operators
import StackCompiler.Proofs.Execution.Truth
import StackCompiler.Proofs.Cast.Phrase
import StackCompiler.Proofs.Cast.Steps
import StackCompiler.Proofs.Cast.Build
import StackCompiler.Proofs.Cast.Text
import StackCompiler.Proofs.Cast.Erasure
