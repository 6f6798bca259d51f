import Spl.Word

/-!
# Sizes of types

A primitive value takes one word of four bytes, an array the bytes of its elements and a record the
bytes of its fields, which are laid out back to back.

* `Ty.byteSize`: the size in word arithmetic, a fault if that overflows.
* `Ty.checkedByteSize`: the size if it and the sizes of all parts are words.
* `Ty.fieldOffset`: where a field of a record begins.
-/

namespace Spl

/-- The bytes of one machine word. -/
def wordBytes : Word := 4

namespace Ty

mutual

/-- The bytes that a value of the type takes. The length of an array enters as the word with the
same 32 bits, so a length above the largest word counts as negative. -/
def byteSize : Ty → Except Fault Word
  | .int | .bool => .ok wordBytes
  | .array length base => do Word.product length.toInt32 (← base.byteSize)
  | .record fields => byteSizeFrom 0 fields

/-- The bytes of the fields, added to those of the fields before them. -/
def byteSizeFrom (before : Word) : List (String × Ty) → Except Fault Word
  | [] => .ok before
  | (_, type) :: fields => do byteSizeFrom (← before.sum (← type.byteSize)) fields

end

mutual

/-- The bytes that a value of the type takes, if each array length and each size on the way is a
word. A type that passes this check has a `byteSize`. -/
def checkedByteSize : Ty → Option Word
  | .int | .bool => some wordBytes
  | .array length base => do
    let length ← Word.ofInt? length.toNat
    (length.product (← base.checkedByteSize)).toOption
  | .record fields => checkedByteSizeFrom 0 fields

/-- The checked bytes of the fields, added to those of the fields before them. -/
def checkedByteSizeFrom (before : Word) : List (String × Ty) → Option Word
  | [] => some before
  | (_, type) :: fields => do
    checkedByteSizeFrom (← (before.sum (← type.checkedByteSize)).toOption) fields

end

/-- The type of the first field with the given name. -/
def fieldType? (fields : List (String × Ty)) (name : String) : Option Ty :=
  fields.lookup name

/-- The bytes of the fields before the first one with the given name, added to `before`; `none` if
no field has that name. -/
def fieldOffsetFrom (before : Word) : List (String × Ty) → String → Except Fault (Option Word)
  | [], _ => .ok none
  | (field, type) :: fields, name =>
    if field = name then .ok (some before)
    else do fieldOffsetFrom (← before.sum (← type.byteSize)) fields name

/-- The offset of the first field with the given name from the start of its record. -/
def fieldOffset (fields : List (String × Ty)) (name : String) : Except Fault (Option Word) :=
  fieldOffsetFrom 0 fields name

end Ty

end Spl
