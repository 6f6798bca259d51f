import Spl.Json.Value
import Spl.Tree.Basic

/-!
# Syntax trees as JSON

Every node is written in full: as an object with a field for each part, whether or not it has its
default value. Type slots are not written.

* `Program.toJson`: the JSON value of a program.
-/

namespace Spl

namespace Position

/-- The JSON value of a position. -/
def toJson (p : Position) : Json :=
  .object [("line", .int p.line.toNat), ("column", .int p.column.toNat)]

end Position

namespace BinaryOp

/-- The JSON value of a binary operator: the name of its kind. -/
def toJson : BinaryOp → Json
  | .arith .add => .string "Add"
  | .arith .sub => .string "Sub"
  | .arith .mul => .string "Mul"
  | .arith .div => .string "Div"
  | .compare .equ => .string "Equ"
  | .compare .neq => .string "Neq"
  | .compare .lst => .string "Lst"
  | .compare .lse => .string "Lse"
  | .compare .grt => .string "Grt"
  | .compare .gre => .string "Gre"

end BinaryOp

namespace UnaryOp

/-- The JSON value of a unary operator: the name of its kind. -/
def toJson : UnaryOp → Json
  | .minus => .string "Minus"

end UnaryOp

namespace Json

/-- A node of the given kind, whose first part is its position. -/
def node (tag : String) (position : Position) (parts : List (String × Json)) : Json :=
  .object [(tag, .object (("position", position.toJson) :: parts))]

end Json

namespace TypeExpr

mutual

/-- The JSON value of a type expression. -/
def toJson : TypeExpr → Json
  | .named position name _ => .node "Named" position [("name", .string name)]
  | .array position size base _ =>
    .node "Array" position [("size", .int size.toNat), ("base", base.toJson)]
  | .record position fields _ => .node "Record" position [("fields", .array (fieldsToJson fields))]

/-- The JSON values of the fields of a record type. -/
def fieldsToJson : List (Binding TypeExpr) → List Json
  | [] => []
  | ⟨position, name, type⟩ :: fields =>
    .object [("position", position.toJson), ("name", .string name),
      ("type_expression", type.toJson)] :: fieldsToJson fields

end

end TypeExpr

mutual

/-- The JSON value of an expression. -/
def Expr.toJson : Expr → Json
  | .binary position op left right _ =>
    .node "Binary" position
      [("operator", op.toJson), ("left", left.toJson), ("right", right.toJson)]
  | .unary position op operand _ =>
    .node "Unary" position [("operator", op.toJson), ("operand", operand.toJson)]
  | .literal position value _ => .node "IntLiteral" position [("value", .int value.toInt)]
  | .designator position target _ => .node "Variable" position [("variable", target.toJson)]

/-- The JSON value of a designator. -/
def Designator.toJson : Designator → Json
  | .named position name _ => .node "Named" position [("name", .string name)]
  | .element position array index _ =>
    .node "ArrayAccess" position [("array", array.toJson), ("index", index.toJson)]
  | .field position record name _ =>
    .node "FieldAccess" position [("record", record.toJson), ("field", .string name)]

end

namespace Stmt

mutual

/-- The JSON value of a statement. -/
def toJson : Stmt → Json
  | .assign position target value =>
    .node "Assign" position [("target", target.toJson), ("value", value.toJson)]
  | .ifElse position condition thenPart elsePart =>
    .node "If" position [("condition", condition.toJson), ("then_part", thenPart.toJson),
      ("else_part", elsePart.toJson)]
  | .whileDo position condition body =>
    .node "While" position [("condition", condition.toJson), ("body", body.toJson)]
  | .call c =>
    .node "Call" c.position [("procedure", .string c.procedure),
      ("arguments", .array (c.arguments.map Expr.toJson))]
  | .compound position statements =>
    .node "Compound" position [("statements", .array (listToJson statements))]
  | .empty position => .object [("Empty", position.toJson)]

/-- The JSON values of a list of statements. -/
def listToJson : List Stmt → List Json
  | [] => []
  | s :: ss => s.toJson :: listToJson ss

end

end Stmt

namespace Binding

/-- The parts of a name bound to a type expression. -/
def jsonParts (b : Binding TypeExpr) : List (String × Json) :=
  [("position", b.position.toJson), ("name", .string b.name), ("type_expression", b.type.toJson)]

/-- The JSON value of a name bound to a type expression. -/
def toJson (b : Binding TypeExpr) : Json := .object b.jsonParts

end Binding

namespace ParamDecl

/-- The JSON value of the declaration of a parameter. -/
def toJson (d : ParamDecl) : Json :=
  .object (d.toBinding.jsonParts ++ [("is_reference", .bool d.isReference)])

end ParamDecl

namespace ProcDecl

/-- The JSON value of the declaration of a procedure. -/
def toJson (d : ProcDecl) : Json :=
  .object [("position", d.position.toJson), ("name", .string d.name),
    ("parameters", .array (d.parameters.map ParamDecl.toJson)),
    ("variables", .array (d.locals.map Binding.toJson)),
    ("body", .array (d.body.map Stmt.toJson))]

end ProcDecl

namespace Decl

/-- The JSON value of a declaration. -/
def toJson : Decl → Json
  | .type d => .object [("Type", d.toJson)]
  | .procedure d => .object [("Procedure", d.toJson)]

end Decl

namespace Program

/-- The JSON value of a program. -/
def toJson (p : Program) : Json :=
  .object [("position", p.position.toJson),
    ("declarations", .array (p.declarations.map Decl.toJson))]

end Program

end Spl
