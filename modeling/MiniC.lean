import MiniC.Allocation.Interval
import MiniC.Allocation.LinearScan
import MiniC.Asm
import MiniC.Asm.Register
import MiniC.CType
import MiniC.CType.Layout
import MiniC.CType.Shape
import MiniC.Command.Arguments
import MiniC.Command.Run
import MiniC.Compiler
import MiniC.Emit.Allocated
import MiniC.Emit.Data
import MiniC.Emit.Error
import MiniC.Emit.Stack
import MiniC.FileTree
import MiniC.Files
import MiniC.Grammar.Constant
import MiniC.Grammar.Error
import MiniC.Grammar.Expression
import MiniC.Grammar.Initializer
import MiniC.Grammar.Parse
import MiniC.Grammar.State
import MiniC.Grammar.Statement
import MiniC.Grammar.Unit
import MiniC.Ir
import MiniC.Ir.Lowering
import MiniC.Ir.Printer
import MiniC.Macro
import MiniC.Macro.Directive
import MiniC.Macro.Expansion
import MiniC.Main
import MiniC.Options
import MiniC.Program
import MiniC.Program.Expr
import MiniC.Program.Outline
import MiniC.Program.Stmt
import MiniC.Proofs.Access.Objects
import MiniC.Proofs.Access.Slots
import MiniC.Proofs.Access.Widths
import MiniC.Proofs.Allocated.Code
import MiniC.Proofs.Allocated.Discipline
import MiniC.Proofs.Allocated.Registers
import MiniC.Proofs.Allocated.Successors
import MiniC.Proofs.Computations
import MiniC.Proofs.Constant.Addresses
import MiniC.Proofs.Constant.Folding
import MiniC.Proofs.Constant.Integers
import MiniC.Proofs.DataSection
import MiniC.Proofs.Emission
import MiniC.Proofs.FrameLayouts
import MiniC.Proofs.Globals
import MiniC.Proofs.Grammar.Alike
import MiniC.Proofs.Grammar.Blame
import MiniC.Proofs.Grammar.Blocks
import MiniC.Proofs.Grammar.Builds
import MiniC.Proofs.Grammar.Changes
import MiniC.Proofs.Grammar.Functions
import MiniC.Proofs.Grammar.Interning
import MiniC.Proofs.Grammar.Inverse
import MiniC.Proofs.Grammar.Named
import MiniC.Proofs.Grammar.Printing
import MiniC.Proofs.Grammar.Progress
import MiniC.Proofs.Grammar.Raw
import MiniC.Proofs.Grammar.Shadowing
import MiniC.Proofs.Grammar.StructBodies
import MiniC.Proofs.Grammar.Takes
import MiniC.Proofs.Images
import MiniC.Proofs.Initializers
import MiniC.Proofs.Labels.Jumps
import MiniC.Proofs.Labels.Names
import MiniC.Proofs.Labels.Symbols
import MiniC.Proofs.Layouts
import MiniC.Proofs.LinearScan
import MiniC.Proofs.Lowering.Build
import MiniC.Proofs.Lowering.Liveness
import MiniC.Proofs.Lowering.Meaning
import MiniC.Proofs.Lowering.Preservation
import MiniC.Proofs.Lowering.Ranges
import MiniC.Proofs.Lowering.Text
import MiniC.Proofs.Lowering.WellFormed
import MiniC.Proofs.Macro.Projection
import MiniC.Proofs.Macro.Rescan
import MiniC.Proofs.Macro.Substitution
import MiniC.Proofs.ObjectSizes
import MiniC.Proofs.Paths
import MiniC.Proofs.Semantics.Assembly
import MiniC.Proofs.Semantics.Blocks
import MiniC.Proofs.Semantics.Extended
import MiniC.Proofs.Semantics.Flow
import MiniC.Proofs.Semantics.Interference
import MiniC.Proofs.Semantics.Segments
import MiniC.Proofs.Semantics.Simulation
import MiniC.Proofs.Semantics.Tree
import MiniC.Proofs.Semantics.Untyped
import MiniC.Proofs.Semantics.Word
import MiniC.Proofs.Stack.Balance
import MiniC.Proofs.Stack.Discipline
import MiniC.Proofs.Stack.Dispatch
import MiniC.Proofs.Stack.Labels
import MiniC.Proofs.Stack.Notes
import MiniC.Proofs.StructLayouts
import MiniC.Proofs.Switch.Selection
import MiniC.Proofs.Switch.Statements
import MiniC.Proofs.Token.Lexeme
import MiniC.Proofs.Token.Names
import MiniC.Proofs.Token.Partition
import MiniC.Proofs.Token.Spelling
import MiniC.Proofs.Typing.Canonical
import MiniC.Proofs.Typing.Expressions
import MiniC.Proofs.Typing.Formed
import MiniC.Proofs.Typing.Idempotent
import MiniC.Proofs.Typing.Rules
import MiniC.Proofs.Typing.Scaling
import MiniC.Proofs.Typing.Typed
import MiniC.Proofs.Typing.Updates
import MiniC.Source
import MiniC.Source.Report
import MiniC.Text.Graphic
import MiniC.Text.Outline
import MiniC.Text.Quoted
import MiniC.Token
import MiniC.Token.Lexer
import MiniC.Typing.Error
import MiniC.Typing.Expr
import MiniC.Typing.Frame
import MiniC.Typing.Program
import MiniC.Typing.Stmt
