/-!
# Operators

The binary operators fall into two kinds, which the compiler treats differently: arithmetic
operators compute an `int`, comparisons a `bool`.

* `Comparison.negate_negate`, `Comparison.negate_ne`: each comparison has an opposite.
-/

namespace Spl

/-- An operator that computes a number. -/
inductive ArithOp where
  | add
  | sub
  | mul
  | div
  deriving DecidableEq

/-- An operator that compares two values. -/
inductive Comparison where
  | equ
  | neq
  | lst
  | lse
  | grt
  | gre
  deriving DecidableEq

/-- An operator between two operands. -/
inductive BinaryOp where
  | arith (op : ArithOp)
  | compare (op : Comparison)
  deriving DecidableEq

/-- An operator before its operand. -/
inductive UnaryOp where
  | minus
  deriving DecidableEq

namespace ArithOp

/-- The sign of an arithmetic operator. -/
def text : ArithOp → String
  | .add => "+"
  | .sub => "-"
  | .mul => "*"
  | .div => "/"

end ArithOp

namespace Comparison

/-- The sign of a comparison. -/
def text : Comparison → String
  | .equ => "="
  | .neq => "#"
  | .lst => "<"
  | .lse => "<="
  | .grt => ">"
  | .gre => ">="

/-- The comparison that holds exactly when this one does not. A branch past a block is taken on
the negation of the block's condition. -/
def negate : Comparison → Comparison
  | .equ => .neq
  | .neq => .equ
  | .lst => .gre
  | .lse => .grt
  | .grt => .lse
  | .gre => .lst

@[simp]
theorem negate_negate (op : Comparison) : op.negate.negate = op := by cases op <;> rfl

theorem negate_ne (op : Comparison) : op.negate ≠ op := by cases op <;> decide

end Comparison

namespace BinaryOp

/-- The sign of a binary operator. -/
def text : BinaryOp → String
  | .arith op => op.text
  | .compare op => op.text

/-- True of the operators that compute a number. -/
def isArithmetic : BinaryOp → Bool
  | .arith _ => true
  | .compare _ => false

/-- True of the operators that compare. -/
def isComparison (op : BinaryOp) : Bool := !op.isArithmetic

/-- The negation of a comparison; an arithmetic operator has none and stays as it is. -/
def negate : BinaryOp → BinaryOp
  | .arith op => .arith op
  | .compare op => .compare op.negate

end BinaryOp

namespace UnaryOp

/-- The sign of a unary operator. -/
def text : UnaryOp → String
  | .minus => "-"

end UnaryOp

end Spl
