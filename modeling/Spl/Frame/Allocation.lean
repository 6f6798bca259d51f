import Spl.Failure
import Spl.SymbolTable.Basic
import Spl.Tree.Basic

/-!
# Allocating variables

Every parameter and local variable gets its offset from the frame pointer of its procedure, and
every procedure the layout of its frame. Parameters lie from offset 0 upwards in the argument area;
their offsets are written both where callers look them up and where the procedure itself does.
Local variables lie downwards from the frame pointer, each directly below the one declared before
it. The outgoing area holds the arguments of the largest call.

A fault ends the allocation, and the offsets and layouts written before it stay.

* `placeParameters`, `placeLocals`: the offsets.
* `outgoingBytes`: the size of the outgoing area.
* `allocate`: the allocation of a program.
-/

namespace Spl

/-- A step that writes into the table. -/
abbrev Allocation := EStateM Fault SymbolTable

/-- A computation that can only end in a fault is a step of the allocation. -/
instance : MonadLift (Except Fault) Allocation where
  monadLift
    | .ok a => pure a
    | .error f => throw f

/-- Gives the parameters of a procedure the offsets from `offset` upwards, as callers see them. The
answer is the offset behind the last one. -/
def placeParameters : (offset : Word) → List Variable → Visit Fault (List Variable) Word
  | offset, [] => .pure [] offset
  | offset, v :: vs =>
    let v := { v with offset := some offset }
    match v.footprint >>= offset.sum with
    | .ok next => (placeParameters next vs).mapTree (v :: ·)
    | .error f => .fail (v :: vs) f

/-- Places the parameters of a procedure as callers see them. The answer is the placed parameters
and the size of the argument area. -/
def placeSignature (name : String) (p : Procedure) : Allocation (List Variable × Word) := do
  let placed := placeParameters 0 p.parameters
  modify (·.updateProcedure name ({ · with parameters := placed.tree }))
  return (placed.tree, ← placed.answer)

/-- Writes the offsets of the parameters where their own procedure looks them up. -/
def copyOffsets (scope : ScopeId) : List (ParamDecl × Variable) → Allocation Unit
  | [] => pure ()
  | (d, v) :: rest => do
    if ((← get).local? scope d.name).isNone then throw (.unknownParameter d.name)
    modify (·.updateLocal scope d.name ({ · with offset := v.offset }))
    copyOffsets scope rest

/-- Places local variables downwards from the frame pointer, where `before` is the size of those
above them. The answer is the size of the area. -/
def placeLocals (scope : ScopeId) : (before : Word) → List (Binding TypeExpr) → Allocation Word
  | before, [] => pure before
  | before, d :: ds => do
    let some v := (← get).local? scope d.name | throw (.unknownVariable d.name)
    let size ← before.sum (← v.type.byteSize)
    let offset ← size.negation
    modify (·.updateLocal scope d.name ({ · with offset := some offset }))
    placeLocals scope size ds

/-- The bytes of the largest arguments among the given calls, and at least `largest`. -/
def outgoingBytesFrom (t : SymbolTable) : (largest : Word) → List Call → Except Fault Word
  | largest, [] => .ok largest
  | largest, c :: cs =>
    match t.procedure? c.procedure with
    | none => .error (.unknownProcedure c.procedure)
    | some callee => do
      let bytes ← callee.argumentBytes
      outgoingBytesFrom t (if bytes < largest then largest else bytes) cs

/-- The size of the outgoing area of a procedure that makes the given calls. -/
def outgoingBytes (t : SymbolTable) (calls : List Call) : Except Fault Word :=
  outgoingBytesFrom t 0 calls

/-- Allocates the frame of a procedure. With `leaves`, a procedure that calls nothing gets a leaf
frame. The calls are not counted in a word to find that out, so a procedure with `2 ^ 31` calls or
more, whose count would overflow, is allocated here like any other. -/
def allocateProcedure (leaves : Bool) (d : ProcDecl) : Allocation Unit := do
  let some p := (← get).procedure? d.name | throw (.unknownProcedure d.name)
  let (signature, argumentArea) ← placeSignature d.name p
  copyOffsets p.localScope (d.parameters.zip signature)
  let localArea ← placeLocals p.localScope 0 d.locals
  let outgoingArea ← outgoingBytes (← get) d.calls
  let layout : FrameLayout :=
    { argumentArea := some argumentArea
      localArea := some localArea
      outgoingArea := some outgoingArea
      isLeaf := leaves && d.calls.isEmpty }
  modify (·.updateProcedure d.name ({ · with layout }))

/-- Allocates the frames of the given procedures, in order. -/
def allocateProcedures (leaves : Bool) : List ProcDecl → Allocation Unit
  | [] => pure ()
  | d :: ds => do
    allocateProcedure leaves d
    allocateProcedures leaves ds

/-- Allocates the frames of all procedures of a program. -/
def allocate (leaves : Bool) (program : Program) : Allocation Unit :=
  allocateProcedures leaves program.procedures

end Spl
