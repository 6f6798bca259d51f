import Spl.Tree.Operator
import Spl.Ty.Basic

/-!
# Errors of declarations and bodies

The errors of a program that the compiler reports before it generates code.

* `SemanticError.text`: the report of an error.
-/

namespace Spl

/-- An error in the declarations of a program or in the bodies of its procedures. Arguments are
numbered from 1. -/
inductive SemanticError where
  | redeclaredAsType (name : String)
  | redeclaredAsProcedure (name : String)
  | redeclaredAsVariable (name : String)
  | redeclaredAsParameter (name : String)
  | duplicateField (name : String)
  | typeTooLarge (type : Ty)
  | localsTooLarge (procedure : String)
  | undefinedType (name : String)
  | notAType (name : String)
  | undefinedVariable (name : String)
  | notAVariable (name : String)
  | undefinedProcedure (name : String)
  | notAProcedure (name : String)
  | notARecord (field : String)
  | noSuchField (field : String)
  | aggregateByValue (parameter : String)
  | entryMissing (name : String)
  | entryNotAProcedure (name : String)
  | entryWithParameters (name : String)
  | binaryOperands (op : BinaryOp) (left right : Ty)
  | unaryOperand (op : UnaryOp) (operand : Ty)
  | assignment (target value : Ty)
  | assignmentToArray
  | ifCondition (type : Ty)
  | whileCondition (type : Ty)
  | indexType (type : Ty)
  | indexedType (type : Ty)
  | tooManyArguments (procedure : String)
  | tooFewArguments (procedure : String)
  | argumentType (procedure : String) (number : Nat) (expected actual : Ty)
  | argumentNotVariable (procedure : String) (number : Nat)
  deriving DecidableEq

namespace SemanticError

/-- The report of an error. -/
def text : SemanticError → String
  | .redeclaredAsType name => "redeclaration of '" ++ name ++ "' as type"
  | .redeclaredAsProcedure name => "redeclaration of '" ++ name ++ "' as procedure"
  | .redeclaredAsVariable name => "redeclaration of '" ++ name ++ "' as variable"
  | .redeclaredAsParameter name => "redeclaration of '" ++ name ++ "' as parameter"
  | .duplicateField name => "record field '" ++ name ++ "' already exists"
  | .typeTooLarge type => "type " ++ type.text ++ " is too large"
  | .localsTooLarge procedure =>
    "local variables of procedure '" ++ procedure ++ "' are too large"
  | .undefinedType name => "undefined type '" ++ name ++ "'"
  | .notAType name => "'" ++ name ++ "' is not a type"
  | .undefinedVariable name => "undefined variable '" ++ name ++ "'"
  | .notAVariable name => "'" ++ name ++ "' is not a variable"
  | .undefinedProcedure name => "undefined procedure '" ++ name ++ "'"
  | .notAProcedure name => "call of non-procedure '" ++ name ++ "'"
  | .notARecord field => "access of field '" ++ field ++ "' on a value that is not a record"
  | .noSuchField field => "'" ++ field ++ "' is not a field of the record"
  | .aggregateByValue parameter => "parameter '" ++ parameter ++ "' must be a reference parameter"
  | .entryMissing name => "procedure '" ++ name ++ "' is missing"
  | .entryNotAProcedure name => "'" ++ name ++ "' is not a procedure"
  | .entryWithParameters name => "procedure '" ++ name ++ "' must not have any parameters"
  | .binaryOperands op left right =>
    "operator '" ++ op.text ++ "' is not defined for " ++ left.text ++ " and " ++ right.text
  | .unaryOperand op operand => "operator '" ++ op.text ++ "' is not defined for " ++ operand.text
  | .assignment target value =>
    "illegal assignment of " ++ value.text ++ " to a variable of type " ++ target.text
  | .assignmentToArray => "illegal assignment to an array"
  | .ifCondition type => "'if' condition must be of type bool but is " ++ type.text
  | .whileCondition type => "'while' condition must be of type bool but is " ++ type.text
  | .indexType type => "array index must be of type int but is " ++ type.text
  | .indexedType type => "indexing a value of non-array type " ++ type.text
  | .tooManyArguments procedure => "too many arguments in call of procedure '" ++ procedure ++ "'"
  | .tooFewArguments procedure => "too few arguments in call of procedure '" ++ procedure ++ "'"
  | .argumentType procedure number expected actual =>
    "argument " ++ toString number ++ " of procedure '" ++ procedure ++ "' expects " ++
      expected.text ++ " but got " ++ actual.text
  | .argumentNotVariable procedure number =>
    "argument " ++ toString number ++ " of procedure '" ++ procedure ++ "' must be a variable"

end SemanticError

end Spl
