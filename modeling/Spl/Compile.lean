import Spl.Code.Module
import Spl.Frame.Allocation
import Spl.Typing.Bodies
import Spl.Typing.Declarations

/-!
# Compilation

A program passes through four phases, strictly in this order: its declarations are entered, its
bodies checked, its frames allocated, and its code generated.

* `buildAndCheck`: the first two phases.
* `allocateAndGenerate`: the last two phases.
* `compile`: all four.
-/

namespace Spl

/-- A phase of compilation. -/
inductive Phase where
  | declarations
  | bodies
  | frames
  | code
  deriving DecidableEq, Inhabited

namespace Phase

/-- The phases in their order. -/
def all : List Phase := [.declarations, .bodies, .frames, .code]

/-- The number of phases before this one. -/
def rank : Phase → Nat
  | .declarations => 0
  | .bodies => 1
  | .frames => 2
  | .code => 3

end Phase

/-- How a program is compiled: the procedure with which it starts, the last phase, and whether
procedures that call nothing get leaf frames. -/
structure Options where
  entry : String := "main"
  lastPhase : Phase := .code
  leaves : Bool := false
  deriving DecidableEq, Inhabited

namespace Options

/-- True of the phases up to the last one. -/
def runs (o : Options) (phase : Phase) : Bool := phase.rank ≤ o.lastPhase.rank

end Options

/-- The table of a program whose declarations and bodies are correct. -/
def buildAndCheck (o : Options) (program : Program) : SemanticVisit Program SymbolTable :=
  (enterDeclarations o.entry program).andThen id fun program t =>
    let v := checkBodies t program
    ⟨v.tree.2, v.answer.map fun _ => v.tree.1⟩

/-- Allocates the frames of a checked program and generates its code. The state is its table, in
which the frames stay allocated after a failure. -/
def allocateAndGenerate (o : Options) (program : Program) :
    EStateM (Failure CodegenError) SymbolTable (List Line) := do
  (allocate o.leaves program).adaptExcept .fault
  match generate (← get) program with
  | .ok lines => return lines
  | .error e => throw e

/-- Why a program has no code. -/
inductive CompileFailure where
  | semantic (e : Located SemanticError)
  | codegen (e : Located CodegenError)
  | fault (f : Fault)
  deriving DecidableEq

namespace CompileFailure

/-- A failure of one of the first two phases. -/
def ofSemantic : Failure SemanticError → CompileFailure
  | .error e => .semantic e
  | .fault f => .fault f

/-- A failure of one of the last two phases. -/
def ofCodegen : Failure CodegenError → CompileFailure
  | .error e => .codegen e
  | .fault f => .fault f

/-- The report of a failure. -/
def message : CompileFailure → String
  | .semantic e => e.message SemanticError.text
  | .codegen e => e.message CodegenError.text
  | .fault f => f.text

end CompileFailure

/-- Compiles a program, through all phases. -/
def compile (o : Options) (program : Program) : Visit CompileFailure Program (List Line) :=
  let v := buildAndCheck o program
  ⟨v.tree, do
    let t ← v.answer.mapError .ofSemantic
    match (allocateAndGenerate o v.tree).run t with
    | .ok lines _ => .ok lines
    | .error e _ => .error (.ofCodegen e)⟩

end Spl
