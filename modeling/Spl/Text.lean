/-!
# Texts of lines

Dumps, diagrams and assembly are texts of lines.

* `unlines`: the text of a list of lines.
-/

namespace Spl

/-- The text of the given lines, each ended by a line feed. -/
def unlines (lines : List String) : String := String.join (lines.map (· ++ "\n"))

end Spl
