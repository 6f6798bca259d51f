import Spl.Assembly.Line
import Spl.Failure

/-!
# The state of code generation

Code generation appends lines to a module. It keeps the registers in use and the number of the next
local label; both carry on from one program to the next, and after a failure.

* `emit`: appends an instruction.
* `newLabel`: a label that no other call of it gives.
* `current`, `push`, `pop`: the registers in use.
-/

namespace Spl

/-- An error that only code generation finds. -/
inductive CodegenError where
  | registersExhausted
  | frameNotAllocated (procedure : String)
  deriving DecidableEq

namespace CodegenError

/-- The report of an error. -/
def text : CodegenError → String
  | .registersExhausted => "expression is too complicated, ran out of registers"
  | .frameNotAllocated procedure =>
    "stack frame of procedure '" ++ procedure ++ "' has not been allocated"

end CodegenError

/-- The state of code generation: the registers in use, the number of the next label and the lines
so far. -/
structure Generator where
  registers : RegisterStack := {}
  nextLabel : Nat := 0
  lines : Array Line := #[]

/-- A step of code generation. What it appended before a failure stays. -/
abbrev Gen := EStateM (Failure CodegenError) Generator

/-- A computation that can only end in a fault is a step of code generation. -/
instance : MonadLift (Except Fault) Gen where
  monadLift
    | .ok a => pure a
    | .error f => throw (.fault f)

/-- Ends code generation with a fault. -/
def Gen.fault {α : Type} (f : Fault) : Gen α := throw (.fault f)

/-- Appends an instruction. -/
def emit (inst : Inst) : Gen Unit :=
  modify fun g => { g with lines := g.lines.push { inst } }

/-- Appends an instruction with a comment. -/
def emitNoted (inst : Inst) (comment : String) : Gen Unit :=
  modify fun g => { g with lines := g.lines.push { inst, comment := some comment } }

/-- The local label of a number. -/
def labelName (n : Nat) : String := "L" ++ toString n

/-- A new local label. Labels are counted in 32 bits. -/
def newLabel : Gen String := do
  let g ← get
  if g.nextLabel + 1 < UInt32.size then
    set { g with nextLabel := g.nextLabel + 1 }
    return labelName g.nextLabel
  else Gen.fault (.overflow .addition)

/-- The register into which a value is computed now. -/
def current : Gen Reg := return (← get).registers.current

/-- Takes the next register, for a form at the given position. -/
def push (position : Position) : Gen Reg := do
  let g ← get
  match g.registers.push? with
  | some registers =>
    set { g with registers }
    return registers.current
  | none => throw (.error ⟨position, .registersExhausted⟩)

/-- Gives the current register back. -/
def pop : Gen Unit := do
  let g ← get
  let registers ← g.registers.pop
  set { g with registers }

end Spl
