/-!
# Positions in a source text

Every node of a syntax tree carries the place where it was written. Errors are reported at such a
place.

* `Located.message`: the report of an error, after its line and column.
-/

namespace Spl

/-- A line and a column of the source text, both counted from 1. The position `0:0` marks a node
that no source text produced. -/
structure Position where
  line : UInt32 := 0
  column : UInt32 := 0
  deriving DecidableEq, Inhabited

namespace Position

/-- The line and the column, separated by a colon. -/
def text (p : Position) : String := toString p.line.toNat ++ ":" ++ toString p.column.toNat

end Position

/-- An error together with the position of the node that caused it. -/
structure Located (ε : Type) where
  position : Position
  cause : ε
  deriving DecidableEq

namespace Located

/-- The report of an error: the letter `L`, its position and the text of its cause. -/
def message {ε : Type} (text : ε → String) (e : Located ε) : String :=
  "L" ++ e.position.text ++ ": " ++ text e.cause

end Located

end Spl
