import Spl.Code.Generator
import Spl.SymbolTable.Predefined
import Spl.Tree.Basic

/-!
# Code for procedure bodies

The code of a form computes into the current register and leaves the registers below it alone: the
address of a designator, the value of an expression. A condition branches if it does not hold, and
falls through if it does. A comparison is a condition first of all; as a value it is 0 or 1.

* `Designator.address`, `Expr.value`: addresses and values.
* `Expr.branchUnless`: conditions.
* `Stmt.code`: statements.
-/

namespace Spl

/-- How a procedure reaches its variables: its local scope, the register from which it counts, and
the distance from that register to the frame pointer. -/
structure Addressing where
  scope : ScopeId
  base : Reg
  bias : Word

namespace ArithOp

/-- The instruction that computes an arithmetic operator. -/
def aluOp : ArithOp → AluOp
  | .add => .add
  | .sub => .sub
  | .mul => .mul
  | .div => .div

end ArithOp

namespace Comparison

/-- The condition of the branch that is taken when a comparison holds. -/
def cond : Comparison → Cond
  | .equ => .eq
  | .neq => .ne
  | .lst => .lt
  | .lse => .le
  | .grt => .gt
  | .gre => .ge

end Comparison

/-- The variable that a name denotes inside a procedure. -/
def variableAt (t : SymbolTable) (scope : ScopeId) (name : String) : Except Fault Variable :=
  match (t.find? scope name).bind Entry.var? with
  | some v => .ok v
  | none => .error (.unknownVariable name)

/-- The length and the base type of an array type. -/
def arrayParts : Ty → Except Fault (UInt32 × Ty)
  | .array length base => .ok (length, base)
  | type@.int | type@.bool | type@(.record _) => .error (.indexIntoNonArray type)

/-- The offset of a field in a record type. -/
def offsetInRecord (name : String) : Ty → Except Fault Word
  | .record fields => do
    match ← Ty.fieldOffset fields name with
    | some offset => .ok offset
    | none => .error (.unknownField name)
  | .int | .bool | .array .. => .error (.unknownField name)

/-- Branches to a label unless a comparison of two values holds. The code of the values computes
into the current register and the one above it. -/
def branchUnlessHolds (position : Position) (op : Comparison) (left right : Gen Unit)
    (label : String) : Gen Unit := do
  let l ← current
  left
  let r ← push position
  right
  pop
  emit (.branch op.negate.cond l r label)

mutual

/-- Computes the address of a designator into the current register. -/
def Designator.address (t : SymbolTable) (a : Addressing) : Designator → Gen Unit
  | .named _ name _ => do
    let r ← current
    let v ← variableAt t a.scope name
    let some offset := v.offset | Gen.fault (.unplacedVariable name)
    emit (.alu .add r a.base (.immediate (← a.bias.sum offset)))
    if v.isReference then emit (.load r r 0)
  | .element position array index _ => do
    let r ← current
    let (length, base) ← arrayParts (← array.type)
    array.address t a
    let i ← push position
    index.value t a
    let bound ← push position
    emit (.alu .add bound .zero (.immediate length.toInt32))
    emit (.branch .geu i bound indexErrorRoutine)
    pop
    emit (.alu .mul i i (.immediate (← base.byteSize)))
    pop
    emit (.alu .add r r (.register i))
  | .field _ record name _ => do
    let r ← current
    let offset ← offsetInRecord name (← record.type)
    record.address t a
    if offset ≠ 0 then emit (.alu .add r r (.immediate offset))

/-- Computes the value of an expression into the current register. -/
def Expr.value (t : SymbolTable) (a : Addressing) : Expr → Gen Unit
  | .literal _ value _ => do
    emit (.alu .add (← current) .zero (.immediate value))
  | .unary _ .minus operand _ => do
    let r ← current
    operand.value t a
    emit (.alu .sub r .zero (.register r))
  | .binary position (.compare op) left right _ => do
    let r ← current
    let otherwise ← newLabel
    let done ← newLabel
    branchUnlessHolds position op (left.value t a) (right.value t a) otherwise
    emit (.alu .add r .zero (.immediate 1))
    emit (.jump done)
    emit (.label otherwise)
    emit (.alu .add r .zero (.immediate 0))
    emit (.label done)
  | .binary position (.arith op) left right _ => do
    let r ← current
    left.value t a
    let operand ← push position
    right.value t a
    pop
    emit (.alu op.aluOp r r (.register operand))
  | .designator _ target _ => do
    let r ← current
    target.address t a
    emit (.load r r 0)

end

namespace Expr

/-- Branches to a label unless the value of a condition is true. -/
def branchUnless (t : SymbolTable) (a : Addressing) (condition : Expr) (label : String) :
    Gen Unit := do
  match condition with
  | .binary position (.compare op) left right _ =>
    branchUnlessHolds position op (left.value t a) (right.value t a) label
  | .binary _ (.arith _) .. | .unary .. | .literal .. | .designator .. =>
    let r ← current
    condition.value t a
    emit (.branch .eq r .zero label)

/-- Computes an argument into the current register: the address of what it denotes for a reference
parameter, its value otherwise. The number is for reports. -/
def argument (t : SymbolTable) (a : Addressing) (c : Call) (number : Nat) (parameter : Variable)
    (e : Expr) : Gen Unit :=
  if parameter.isReference then
    match e.designator? with
    | some target => target.address t a
    | none => Gen.fault (.argumentNotVariable number c.procedure)
  else e.value t a

end Expr

namespace Call

/-- Stores the arguments of a call, the first of which has the given index, where the called
procedure looks for them. -/
def storeArguments (t : SymbolTable) (a : Addressing) (c : Call) :
    (index : Nat) → List Expr → List Variable → Gen Unit
  | index, e :: es, parameter :: parameters => do
    e.argument t a c (index + 1) parameter
    let some offset := parameter.offset | Gen.fault (.unplacedParameter (index + 1) c.procedure)
    emitNoted (.store (← current) .stackPointer offset) ("store argument #" ++ toString index)
    storeArguments t a c (index + 1) es parameters
  | _, _, _ => pure ()

/-- Calls a procedure. -/
def code (t : SymbolTable) (a : Addressing) (c : Call) : Gen Unit := do
  let some callee := t.procedure? c.procedure | Gen.fault (.unknownProcedure c.procedure)
  c.storeArguments t a 0 c.arguments callee.parameters
  emit (.call c.procedure)

end Call

namespace Stmt

mutual

/-- The code of a statement. -/
def code (t : SymbolTable) (a : Addressing) : Stmt → Gen Unit
  | .assign position target value => do
    let address ← current
    target.address t a
    let r ← push position
    value.value t a
    emit (.store r address 0)
    pop
  | .ifElse _ condition thenPart elsePart =>
    if elsePart.isEmpty then do
      let done ← newLabel
      condition.branchUnless t a done
      thenPart.code t a
      emit (.label done)
    else do
      let otherwise ← newLabel
      condition.branchUnless t a otherwise
      thenPart.code t a
      let done ← newLabel
      emit (.jump done)
      emit (.label otherwise)
      elsePart.code t a
      emit (.label done)
  | .whileDo _ condition body => do
    let start ← newLabel
    let done ← newLabel
    emit (.label start)
    condition.branchUnless t a done
    body.code t a
    emit (.jump start)
    emit (.label done)
  | .call c => c.code t a
  | .compound _ statements => codeOf t a statements
  | .empty _ => pure ()

/-- The code of a list of statements, one after the other. -/
def codeOf (t : SymbolTable) (a : Addressing) : List Stmt → Gen Unit
  | [] => pure ()
  | s :: ss => do
    s.code t a
    codeOf t a ss

end

end Stmt

end Spl
