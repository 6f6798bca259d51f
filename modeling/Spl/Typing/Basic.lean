import Spl.Failure
import Spl.SemanticError
import Spl.Tree.Basic

/-!
# Semantic passes

The two passes before code generation resolve type expressions and check procedure bodies. Both
compute the types of nodes, write them into the slots of the nodes, and stop at the first error.

* `Verdict`: the outcome of a rule.
* `SemanticVisit`: the outcome of a walk over a tree.
* `conclude`: the step from a rule to the slot of a node.
-/

namespace Spl

/-- The outcome of a semantic rule. -/
abbrev Verdict (α : Type) := Except (Failure SemanticError) α

/-- The outcome of a semantic pass over a tree. -/
abbrev SemanticVisit (τ α : Type) := Visit (Failure SemanticError) τ α

/-- Concludes the visit of a node whose type follows from a rule: the type becomes the answer, and
is written into the slot of the node. -/
def conclude {τ : Type} (slot : TypeSlot) (node : TypeSlot → τ) (rule : Verdict Ty) :
    SemanticVisit τ Ty :=
  match rule with
  | .error e => .fail (node slot) e
  | .ok type =>
    match slot.fill type with
    | .ok slot => .pure (node slot) type
    | .error f => .fail (node slot) (.fault f)

end Spl
