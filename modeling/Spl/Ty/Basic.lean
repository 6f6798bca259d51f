/-!
# Types of values

SPL has two primitive types, and arrays and records built from types. Types compare by structure:
two records are the same type when their fields have the same names and types in the same order,
whichever declarations they come from.

* `Ty.text`: the notation of a type in messages and dumps.
-/

namespace Spl

/-- A type of values. The length of an array is part of its type. -/
inductive Ty where
  | int
  | bool
  | array (length : UInt32) (base : Ty)
  | record (fields : List (String × Ty))
  deriving Inhabited

namespace Ty

mutual

/-- Equality of types is decided by comparing them node by node. -/
def decEq : (s t : Ty) → Decidable (s = t)
  | .int, .int => .isTrue rfl
  | .bool, .bool => .isTrue rfl
  | .array m s, .array n t =>
    have := decEq s t
    decidable_of_iff (m = n ∧ s = t) (by simp)
  | .record fs, .record gs =>
    have := decEqFields fs gs
    decidable_of_iff (fs = gs) (by simp)
  | .int, .bool | .int, .array .. | .int, .record _ => .isFalse nofun
  | .bool, .int | .bool, .array .. | .bool, .record _ => .isFalse nofun
  | .array .., .int | .array .., .bool | .array .., .record _ => .isFalse nofun
  | .record _, .int | .record _, .bool | .record _, .array .. => .isFalse nofun

/-- Equality of field lists: the same names and types in the same order. -/
def decEqFields : (fs gs : List (String × Ty)) → Decidable (fs = gs)
  | [], [] => .isTrue rfl
  | [], _ :: _ => .isFalse nofun
  | _ :: _, [] => .isFalse nofun
  | (m, s) :: fs, (n, t) :: gs =>
    have := decEq s t
    have := decEqFields fs gs
    decidable_of_iff ((m = n ∧ s = t) ∧ fs = gs) (by simp)

end

instance : DecidableEq Ty := decEq

/-- Arrays and records: the types whose values can take more than one word, and which are
therefore passed by reference only. -/
def isAggregate : Ty → Bool
  | .int | .bool => false
  | .array .. | .record _ => true

mutual

/-- The notation of a type: `int`, `bool`, `array [3] of int`, and a record as its fields between
braces, separated by semicolons. -/
def text : Ty → String
  | .int => "int"
  | .bool => "bool"
  | .array length base => "array [" ++ toString length.toNat ++ "] of " ++ base.text
  | .record fields => "record \x7b " ++ "; ".intercalate (fieldTexts fields) ++ " \x7d"

/-- The notation of each field: its name, a colon and its type. -/
def fieldTexts : List (String × Ty) → List String
  | [] => []
  | (name, type) :: fields => (name ++ ": " ++ type.text) :: fieldTexts fields

end

end Ty

end Spl
