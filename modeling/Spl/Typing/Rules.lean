import Spl.SymbolTable.Basic
import Spl.Typing.Basic

/-!
# Typing rules

The rules of the forms in procedure bodies, each as a function from the types of the parts of a
form to the type of the whole, or to the error that the form is.

* `typeOfVariable`, `typeOfElement`, `typeOfField`: designators.
* `typeOfUnary`, `typeOfBinary`: expressions.
* `checkAssignment`, `checkArguments`: statements.
-/

namespace Spl

/-- A name denotes a location if it stands for a variable; the location has its type. -/
def typeOfVariable (t : SymbolTable) (scope : ScopeId) (position : Position) (name : String) :
    Verdict Ty :=
  match t.find? scope name with
  | none => Failure.report position (.undefinedVariable name)
  | some (.var v) => .ok v.type
  | some (.type _) | some (.proc _) => Failure.report position (.notAVariable name)

/-- An index must be an `int`. -/
def checkIndex (position : Position) (index : Ty) : Verdict Unit :=
  if index = .int then .ok () else Failure.report position (.indexType index)

/-- An element has the base type of its array. -/
def typeOfElement (position : Position) : (array : Ty) → Verdict Ty
  | .array _ base => .ok base
  | type@.int | type@.bool | type@(.record _) => Failure.report position (.indexedType type)

/-- A field has the type that its record gives to its name. -/
def typeOfField (position : Position) (name : String) : (record : Ty) → Verdict Ty
  | .record fields =>
    match Ty.fieldType? fields name with
    | some type => .ok type
    | none => Failure.report position (.noSuchField name)
  | .int | .bool | .array .. => Failure.report position (.notARecord name)

/-- A unary operator keeps the type of its operand, which must not be `bool`. -/
def typeOfUnary (position : Position) (op : UnaryOp) (operand : Ty) : Verdict Ty :=
  if operand = .bool then Failure.report position (.unaryOperand op operand) else .ok operand

/-- The operands of a binary operator have the same type. Arithmetic computes an `int`, and a
comparison a `bool`. -/
def typeOfBinary (position : Position) (op : BinaryOp) (left right : Ty) : Verdict Ty :=
  if left = right then
    match op with
    | .arith _ => .ok .int
    | .compare _ => .ok .bool
  else Failure.report position (.binaryOperands op left right)

/-- A value is assigned to a location of the same type, and neither is an array or a record. -/
def checkAssignment (position : Position) (target value : Ty) : Verdict Unit :=
  match target with
  | .record _ => Failure.report position (.assignment target value)
  | .array .. => Failure.report position .assignmentToArray
  | .int | .bool =>
    if target = value then .ok () else Failure.report position (.assignment target value)

/-- A condition is a `bool`. -/
def checkCondition (position : Position) (cause : Ty → SemanticError) (condition : Ty) :
    Verdict Unit :=
  if condition = .bool then .ok () else Failure.report position (cause condition)

/-- The parameters of a called procedure. -/
def parametersOf (t : SymbolTable) (scope : ScopeId) (c : Call) : Verdict (List Variable) :=
  match t.find? scope c.procedure with
  | none => Failure.report c.position (.undefinedProcedure c.procedure)
  | some (.proc p) => .ok p.parameters
  | some (.type _) | some (.var _) => Failure.report c.position (.notAProcedure c.procedure)

/-- A call has as many arguments as its procedure has parameters. -/
def checkCount (c : Call) (parameters : List Variable) : Verdict Unit :=
  if parameters.length < c.arguments.length then
    Failure.report c.position (.tooManyArguments c.procedure)
  else if c.arguments.length < parameters.length then
    Failure.report c.position (.tooFewArguments c.procedure)
  else .ok ()

/-- An argument has the type of its parameter, and for a reference parameter it is a designator. -/
def checkArgument (procedure : String) (number : Nat) (argument : Expr) (type : Ty)
    (parameter : Variable) : Verdict Unit :=
  if type ≠ parameter.type then
    Failure.report argument.position (.argumentType procedure number parameter.type type)
  else if parameter.isReference ∧ argument.designator?.isNone then
    Failure.report argument.position (.argumentNotVariable procedure number)
  else .ok ()

/-- Checks the arguments of a call in order, the first of which has the given number. -/
def checkArguments (procedure : String) :
    (number : Nat) → List Expr → List Ty → List Variable → Verdict Unit
  | number, argument :: arguments, type :: types, parameter :: parameters => do
    checkArgument procedure number argument type parameter
    checkArguments procedure (number + 1) arguments types parameters
  | _, _, _, _ => .ok ()

end Spl
