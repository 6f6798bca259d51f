import Spl.Code.Body

/-!
# Code for programs

A module imports the runtime library and holds the code of each procedure of a program. A procedure
takes its frame from the stack when it begins and gives it back before it returns. It also saves
the caller's frame pointer and its own return address, unless it has a leaf frame.

* `ProcDecl.code`: a procedure.
* `Program.code`: a module.
* `generate`: the lines of a program.
-/

namespace Spl

/-- The offsets of the two linkage words: the old frame pointer, from the stack pointer, and the
return address, from the frame pointer. -/
def linkageOffsets (layout : FrameLayout) : Except Fault (Word × Word) := do
  let oldFramePointer ← layout.oldFramePointerOffset
  let returnAddress ← layout.returnAddressOffset
  match oldFramePointer, returnAddress with
  | some oldFramePointer, some returnAddress => .ok (oldFramePointer, returnAddress)
  | _, _ => .error .unallocatedLinkage

/-- Takes a frame of the given size from the stack. -/
def takeFrame (size : Word) : Gen Unit :=
  emitNoted (.alu .sub .stackPointer .stackPointer (.immediate size)) "allocate frame"

/-- Gives a frame of the given size back. -/
def releaseFrame (size : Word) : Gen Unit :=
  emitNoted (.alu .add .stackPointer .stackPointer (.immediate size)) "release frame"

/-- The code at the beginning of a procedure. The answer says how its body reaches its variables:
from the stack pointer in a leaf frame, from the frame pointer otherwise. -/
def enterFrame (p : Procedure) (size : Word) : Gen Addressing := do
  if p.layout.isLeaf then
    takeFrame size
    return { scope := p.localScope, base := .stackPointer, bias := size }
  else
    let (oldFramePointer, returnAddress) ← linkageOffsets p.layout
    takeFrame size
    emitNoted (.store .framePointer .stackPointer oldFramePointer) "save old frame pointer"
    emitNoted (.alu .add .framePointer .stackPointer (.immediate size)) "setup new frame pointer"
    emitNoted (.store .returnAddress .framePointer returnAddress) "save return register"
    return { scope := p.localScope, base := .framePointer, bias := 0 }

/-- The code at the end of a procedure. -/
def leaveFrame (p : Procedure) (size : Word) : Gen Unit := do
  if p.layout.isLeaf then
    releaseFrame size
  else
    let (oldFramePointer, returnAddress) ← linkageOffsets p.layout
    emitNoted (.load .returnAddress .framePointer returnAddress) "restore return register"
    emitNoted (.load .framePointer .stackPointer oldFramePointer) "restore old frame pointer"
    releaseFrame size
  emitNoted (.jumpRegister .returnAddress) "return"

namespace ProcDecl

/-- The code of a procedure. -/
def code (t : SymbolTable) (d : ProcDecl) : Gen Unit := do
  let some p := t.procedure? d.name | Gen.fault (.unknownProcedure d.name)
  let some size ← p.layout.frameSize | throw (.error ⟨d.position, .frameNotAllocated d.name⟩)
  emit .blank
  emit (.exportName d.name)
  emit (.label d.name)
  let addressing ← enterFrame p size
  Stmt.codeOf t addressing d.body
  leaveFrame p size

end ProcDecl

/-- Imports the given names. -/
def importNames : List String → Gen Unit
  | [] => pure ()
  | name :: names => do
    emit (.importName name)
    importNames names

/-- Imports the runtime library and begins the code. -/
def prologue : Gen Unit := do
  importNames (builtins.map Builtin.name)
  emit (.importName indexErrorRoutine)
  emit .blank
  emit .code
  emit (.align 4)

/-- The code of procedures, one after the other. -/
def codeOfProcedures (t : SymbolTable) : List ProcDecl → Gen Unit
  | [] => pure ()
  | d :: ds => do
    d.code t
    codeOfProcedures t ds

namespace Program

/-- Appends the module of a program. -/
def code (t : SymbolTable) (program : Program) : Gen Unit := do
  prologue
  codeOfProcedures t program.procedures

end Program

/-- The lines of the module of a program. -/
def generate (t : SymbolTable) (program : Program) :
    Except (Failure CodegenError) (List Line) :=
  match (program.code t).run {} with
  | .ok () g => .ok g.lines.toList
  | .error e _ => .error e

end Spl
