import Spl.Ty.Basic

/-!
# Faults

A `Fault` is an inconsistency inside the compiler: the passes ran out of order, on a table that
does not belong to the tree, or their 32-bit arithmetic left its range. A fault is not an error of
the compiled program, and it ends the pass that meets it. What the pass wrote before stays
written.

* `Fault.text`: the report of a fault.
-/

namespace Spl

/-- The arithmetic operation whose exact result does not fit in a word. -/
inductive Overflow where
  | addition
  | multiplication
  | negation
  deriving DecidableEq

namespace Overflow

/-- The report of an overflow. -/
def text : Overflow → String
  | .addition => "attempt to add with overflow"
  | .multiplication => "attempt to multiply with overflow"
  | .negation => "attempt to negate with overflow"

end Overflow

/-- An inconsistency found inside the compiler. Arguments and parameters are numbered from 1. -/
inductive Fault where
  /-- A size, offset or count left its range. -/
  | overflow (operation : Overflow)
  /-- A node whose type was computed before got another one. -/
  | retyped (old new : Ty)
  /-- The type of a node was read before it was computed. -/
  | untyped (node : String)
  /-- The body of a procedure was checked that the table does not declare. -/
  | procedureNotEntered (name : String)
  | unknownProcedure (name : String)
  | unknownParameter (name : String)
  | unknownVariable (name : String)
  | unplacedVariable (name : String)
  | unplacedParameter (number : Nat) (procedure : String)
  | argumentNotVariable (number : Nat) (procedure : String)
  | indexIntoNonArray (type : Ty)
  | unknownField (name : String)
  | unallocatedLinkage
  | registerStackEmpty
  deriving DecidableEq

namespace Fault

/-- The report of a fault. -/
def text : Fault → String
  | .overflow operation => operation.text
  | .retyped old new => "Computed type rewritten from " ++ old.text ++ " to " ++ new.text
  | .untyped node => node ++ " has no computed type"
  | .procedureNotEntered name => "Procedure " ++ name ++ " was not entered by the table builder"
  | .unknownProcedure name => "Procedure " ++ name ++ " is not in the symbol table"
  | .unknownParameter name => "Parameter " ++ name ++ " is not in the symbol table"
  | .unknownVariable name => "Variable " ++ name ++ " is not in the symbol table"
  | .unplacedVariable name => "Variable " ++ name ++ " has no offset"
  | .unplacedParameter number procedure =>
    "Parameter " ++ toString number ++ " of " ++ procedure ++ " has no offset"
  | .argumentNotVariable number procedure =>
    "Reference argument " ++ toString number ++ " of " ++ procedure ++ " is not a variable"
  | .indexIntoNonArray type => "Indexing into non-array type " ++ type.text
  | .unknownField name => "Field " ++ name ++ " is not in the record"
  | .unallocatedLinkage => "Linkage offsets requested for an unallocated frame"
  | .registerStackEmpty => "Popped the last register off of the register stack"

end Fault

end Spl
