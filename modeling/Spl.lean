import Spl.Main
import Spl.SymbolTable.Lemmas
import Spl.Tree.Build
import Spl.Tree.Equality
import Spl.Tree.ToJson
import Spl.Proofs.Ty.Size
import Spl.Proofs.Ty.Parts
import Spl.Proofs.Tree.Fresh
import Spl.Proofs.Typing.Judgement
import Spl.Proofs.Outcome
import Spl.Proofs.SymbolTable.Growth
import Spl.Proofs.Typing.Bodies
import Spl.Proofs.SymbolTable.Declared
import Spl.Proofs.Typing.Declarations
import Spl.Proofs.Typing.Accepted
import Spl.Proofs.Step
import Spl.Proofs.Frame.Placed
import Spl.Proofs.Frame.Allocation
import Spl.Proofs.Code.Generation
import Spl.Proofs.Code.Programs
import Spl.Proofs.Compile.Faults
import Spl.Proofs.Code.Labels
import Spl.Proofs.Compile.Symbols
import Spl.Proofs.Machine.Basic
import Spl.Proofs.Semantics
import Spl.Proofs.Machine.Values
import Spl.Proofs.Machine.Statements
import Spl.Proofs.Compile.Correctness
import Spl.Proofs.Typing.Rules
import Spl.Proofs.Tree.Slots
import Spl.Proofs.Typing.Exact
import Spl.Proofs.Typing.LocalTotals
import Spl.Proofs.Frame.Tiling
import Spl.Proofs.Machine.Frames
import Spl.Proofs.Machine.Calls
import Spl.Proofs.Compile.Calls
import Spl.Proofs.Code.BodyLines
import Spl.Proofs.Machine.Linkage
import Spl.Proofs.Compile.Linkage
import Spl.Proofs.SymbolTable.Laws
import Spl.Proofs.Typing.Denotation
import Spl.Proofs.Typing.Tables
import Spl.Proofs.Code.Twins
import Spl.Proofs.Compile.Passes
import Spl.Proofs.Frame.Leaves
import Spl.Proofs.Compile.Leaves
import Spl.Proofs.Typing.Meaning
import Spl.Proofs.Typing.Reordering
import Spl.Proofs.Frame.Reordering
import Spl.Proofs.Compile.Reordering
import Spl.Proofs.Code.Pending
import Spl.Proofs.Code.Modules
import Spl.Proofs.Tree.Bare
import Spl.Proofs.Typing.Repeats
import Spl.Proofs.Compile.Reruns
import Spl.Proofs.Tool.Input
import Spl.Proofs.Tool
import Spl.Proofs.Json.Shape
import Spl.Proofs.Tree.Spelling
import Spl.Proofs.Typing.Nodes
import Spl.Proofs.Code.Displacement
import Spl.Proofs.Code.Loads
import Spl.Proofs.Compile.Storage
import Spl.Proofs.Machine.Evaluations
import Spl.Proofs.Compile.Evaluations
import Spl.Proofs.Code.Registers
import Spl.Proofs.Compile.Registers
import Spl.Proofs.Compile.CallSites
import Spl.Proofs.Compile.Commuting
import Spl.Proofs.Compile.Renaming
import Spl.Proofs.Compile.Transparent
import Spl.Proofs.Assembly.Reader
import Spl.Proofs.Compile.AssemblyText
import Spl.Proofs.Code.FrameAdds
import Spl.Proofs.Frame.Diagram
import Spl.Proofs.Frame.Rows
import Spl.Proofs.Compile.Diagrams
import Spl.Proofs.Tree.Layers
import Spl.Proofs.Typing.FirstError
import Spl.Proofs.Compile.FirstError
import Spl.Proofs.Ty.Text
import Spl.Proofs.Typing.Reported
import Spl.Proofs.Compile.Reports
