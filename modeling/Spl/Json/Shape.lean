import Spl.Json.Value

/-!
# Shapes of JSON values

A form with several kinds is written as an object with one field, whose key names the kind. A form
with parts is written as an object with a field for each part, or as the array of its parts in
order. Unknown fields are skipped, and a known one must not be repeated.

* `Json.variant?`, `Json.tag?`: the kind of a form.
* `Json.parts?`: the parts of a form.
-/

namespace Spl

namespace Json

/-- The kind of a form and what it is made of. -/
def variant? : Json → Option (String × Json)
  | .object [(tag, body)] => some (tag, body)
  | _ => none

/-- The kind of a form that is made of nothing: its name alone, or with a `null` for what it is
made of. The object of the second spelling takes one of the `levels` of nesting. -/
def tag? : (levels : Nat) → Json → Option String
  | _, .string tag => some tag
  | _ + 1, .object [(tag, .null)] => some tag
  | _, _ => none

/-- The parts of a form, by name. A part that is not written is `none`; an array leaves out trailing
parts only. -/
def parts? (names : List String) : Json → Option (List (Option Json))
  | .array parts =>
    if parts.length ≤ names.length then
      some (parts.map some ++ List.replicate (names.length - parts.length) none)
    else none
  | .object fields =>
    if names.all fun name => (fields.filter (·.1 = name)).length ≤ 1 then
      some (names.map fun name => List.lookup name fields)
    else none
  | _ => none

/-- The elements of an array, each of them read. -/
def elements? {α : Type} (read? : Json → Option α) : Json → Option (List α)
  | .array elements => elements.mapM read?
  | _ => none

/-- A text. -/
def string? : Json → Option String
  | .string s => some s
  | _ => none

/-- A truth value. -/
def bool? : Json → Option Bool
  | .bool b => some b
  | _ => none

/-- An integer without a sign that fits in 32 bits. -/
def uint32? : Json → Option UInt32
  | .int n => if 0 ≤ n ∧ n.toNat < UInt32.size then some (UInt32.ofNat n.toNat) else none
  | _ => none

/-- Reads a part that must be written. -/
def required? {α : Type} (read? : Json → Option α) (part : Option Json) : Option α :=
  part.bind read?

/-- Reads a part that has the value `default` if it is not written. -/
def optional? {α : Type} (default : α) (read? : Json → Option α) : Option Json → Option α
  | none => some default
  | some part => read? part

end Json

end Spl
