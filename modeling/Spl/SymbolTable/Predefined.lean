import Spl.SymbolTable.Basic

/-!
# Predefined names

Every program can use the types `int` and `bool` and the procedures of the runtime library.

* `builtins`: the procedures of the library and their parameters.
* `SymbolTable.predefined`: the table in which the declarations of a program are entered.
-/

namespace Spl

/-- A parameter of a builtin. All of them are of type `int`. -/
structure BuiltinParameter where
  name : String
  isReference : Bool := false
  deriving DecidableEq

/-- A procedure of the runtime library. -/
structure Builtin where
  name : String
  parameters : List BuiltinParameter := []
  deriving DecidableEq

/-- The procedures of the runtime library, in the order in which a program imports them. -/
def builtins : List Builtin :=
  [ ⟨"printi", [⟨"i", false⟩]⟩,
    ⟨"printc", [⟨"i", false⟩]⟩,
    ⟨"readi", [⟨"i", true⟩]⟩,
    ⟨"readc", [⟨"i", true⟩]⟩,
    ⟨"exit", []⟩,
    ⟨"time", [⟨"i", true⟩]⟩,
    ⟨"clearAll", [⟨"color", false⟩]⟩,
    ⟨"setPixel", [⟨"x", false⟩, ⟨"y", false⟩, ⟨"color", false⟩]⟩,
    ⟨"drawLine", [⟨"x1", false⟩, ⟨"y1", false⟩, ⟨"x2", false⟩, ⟨"y2", false⟩, ⟨"color", false⟩]⟩,
    ⟨"drawCircle", [⟨"x0", false⟩, ⟨"y0", false⟩, ⟨"radius", false⟩, ⟨"color", false⟩]⟩ ]

/-- The routine to which a program branches when an index is out of bounds. -/
def indexErrorRoutine : String := "_indexError"

/-- The builtin of the given name. -/
def builtin? (name : String) : Option Builtin := builtins.find? (·.name = name)

namespace Builtin

/-- The parameters as callers see them. Each takes one word, so their offsets are the multiples of
four. -/
def signature (b : Builtin) : List Variable :=
  b.parameters.mapIdx fun i p =>
    { type := .int, isReference := p.isReference, offset := some (Int32.ofNat (4 * i)) }

end Builtin

namespace SymbolTable

/-- Enters a builtin, with a local scope of its own, into the global scope. -/
def addBuiltin (t : SymbolTable) (b : Builtin) : SymbolTable :=
  let (localScope, t) := t.newScope global
  t.modifyScope global
    (·.add b.name (.proc { localScope, parameters := b.signature, isBuiltin := true }))

/-- The table that declares the primitive types and the builtins. -/
def predefined : SymbolTable :=
  builtins.foldl addBuiltin
    (empty.modifyScope global fun s => (s.add "int" (.type .int)).add "bool" (.type .bool))

end SymbolTable

end Spl
