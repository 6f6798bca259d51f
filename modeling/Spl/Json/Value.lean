/-!
# JSON values

A JSON text denotes a tree of values. Objects keep their fields in the order in which they are
written, repeated keys included.

* `Json.depth`: how deep arrays and objects are nested.
-/

namespace Spl

/-- A JSON value. A number is an `int` if it is written as an integer, and a `decimal` otherwise;
`-0` counts as a decimal. -/
inductive Json where
  | null
  | bool (value : Bool)
  | int (value : Int)
  | decimal (digits : String)
  | string (value : String)
  /-- A string that denotes no text, because it holds an unpaired surrogate, or an object with such
  a key. -/
  | illFormed
  | array (elements : List Json)
  | object (fields : List (String × Json))
  deriving Inhabited

namespace Json

mutual

/-- The number of arrays and objects on the longest way into the value. -/
def depth : Json → Nat
  | .array elements => depthOfElements elements + 1
  | .object fields => depthOfFields fields + 1
  | .null | .bool _ | .int _ | .decimal _ | .string _ | .illFormed => 0

/-- The largest depth of the elements of an array. -/
def depthOfElements : List Json → Nat
  | [] => 0
  | v :: vs => max v.depth (depthOfElements vs)

/-- The largest depth of the values in an object. -/
def depthOfFields : List (String × Json) → Nat
  | [] => 0
  | (_, v) :: fields => max v.depth (depthOfFields fields)

end

/-- The value of the first field with the given key. -/
def field? (v : Json) (key : String) : Option Json :=
  match v with
  | .object fields => fields.lookup key
  | .null | .bool _ | .int _ | .decimal _ | .string _ | .illFormed | .array _ => none

end Json

end Spl
