import Spl.Json.Reader
import Spl.Json.Shape
import Spl.Tree.Basic

/-!
# Syntax trees from JSON

The readers of the forms of a syntax tree. Each takes the number of levels to which arrays and
objects may still be nested; a value that is skipped takes none. The trees that are read have empty
type slots.

* `Program.ofJson?`: the program that a JSON value stands for, however deep.
* `Program.ofText?`: the program that a JSON text stands for, to 127 levels.
-/

namespace Spl

namespace Json

/-- A word, written as an integer. -/
def word? : Json → Option Word
  | .int n => Word.ofInt? n
  | _ => none

/-- A position. Its line and its column must both be written. -/
def position? : (levels : Nat) → Json → Option Position
  | 0, _ => none
  | _ + 1, v => do
    let [line, column] ← v.parts? ["line", "column"] | none
    return { line := ← required? uint32? line, column := ← required? uint32? column }

/-- The position of a node, which is `0:0` if it is not written. -/
def positionPart? (levels : Nat) : Option Json → Option Position :=
  optional? {} (position? levels)

/-- A binary operator. -/
def binaryOp? (levels : Nat) (v : Json) : Option BinaryOp := do
  match ← v.tag? levels with
  | "Add" => some (.arith .add)
  | "Sub" => some (.arith .sub)
  | "Mul" => some (.arith .mul)
  | "Div" => some (.arith .div)
  | "Equ" => some (.compare .equ)
  | "Neq" => some (.compare .neq)
  | "Lst" => some (.compare .lst)
  | "Lse" => some (.compare .lse)
  | "Grt" => some (.compare .grt)
  | "Gre" => some (.compare .gre)
  | _ => none

/-- A unary operator. -/
def unaryOp? (levels : Nat) (v : Json) : Option UnaryOp := do
  match ← v.tag? levels with
  | "Minus" => some .minus
  | _ => none

mutual

/-- A type expression. -/
def typeExpr? : (levels : Nat) → Json → Option TypeExpr
  | levels + 2, v => do
    let (tag, body) ← v.variant?
    match tag with
    | "Named" =>
      let [position, name] ← body.parts? ["position", "name"] | none
      return .named (← positionPart? levels position) (← required? string? name) {}
    | "Array" =>
      let [position, size, base] ← body.parts? ["position", "size", "base"] | none
      return .array (← positionPart? levels position) (← required? uint32? size)
        (← required? (typeExpr? levels) base) {}
    | "Record" =>
      let [position, fields] ← body.parts? ["position", "fields"] | none
      let fields ←
        match levels with
        | 0 => none
        | levels + 1 => required? (elements? (binding? levels)) fields
      return .record (← positionPart? levels position) fields {}
    | _ => none
  | _, _ => none

/-- A name and what is written for its type. -/
def binding? : (levels : Nat) → Json → Option (Binding TypeExpr)
  | 0, _ => none
  | levels + 1, v => do
    let [position, name, type] ← v.parts? ["position", "name", "type_expression"] | none
    return {
      position := ← positionPart? levels position
      name := ← required? string? name
      type := ← required? (typeExpr? levels) type }

end

mutual

/-- An expression. -/
def expr? : (levels : Nat) → Json → Option Expr
  | levels + 2, v => do
    let (tag, body) ← v.variant?
    match tag with
    | "Binary" =>
      let [position, op, left, right] ← body.parts? ["position", "operator", "left", "right"]
        | none
      return .binary (← positionPart? levels position) (← required? (binaryOp? levels) op)
        (← required? (expr? levels) left) (← required? (expr? levels) right) {}
    | "Unary" =>
      let [position, op, operand] ← body.parts? ["position", "operator", "operand"] | none
      return .unary (← positionPart? levels position) (← required? (unaryOp? levels) op)
        (← required? (expr? levels) operand) {}
    | "IntLiteral" =>
      let [position, value] ← body.parts? ["position", "value"] | none
      return .literal (← positionPart? levels position) (← required? word? value) {}
    | "Variable" =>
      let [position, target] ← body.parts? ["position", "variable"] | none
      return .designator (← positionPart? levels position)
        (← required? (designator? levels) target) {}
    | _ => none
  | _, _ => none

/-- A designator. -/
def designator? : (levels : Nat) → Json → Option Designator
  | levels + 2, v => do
    let (tag, body) ← v.variant?
    match tag with
    | "Named" =>
      let [position, name] ← body.parts? ["position", "name"] | none
      return .named (← positionPart? levels position) (← required? string? name) {}
    | "ArrayAccess" =>
      let [position, whole, index] ← body.parts? ["position", "array", "index"] | none
      return .element (← positionPart? levels position) (← required? (designator? levels) whole)
        (← required? (expr? levels) index) {}
    | "FieldAccess" =>
      let [position, whole, field] ← body.parts? ["position", "record", "field"] | none
      return .field (← positionPart? levels position) (← required? (designator? levels) whole)
        (← required? string? field) {}
    | _ => none
  | _, _ => none

end

/-- A list of forms, which is empty if it is not written. -/
def listPart? {α : Type} (form? : Nat → Json → Option α) :
    (levels : Nat) → Option Json → Option (List α)
  | _, none => some []
  | 0, some _ => none
  | levels + 1, some v => v.elements? (form? levels)

/-- A call. -/
def call? : (levels : Nat) → Json → Option Call
  | 0, _ => none
  | levels + 1, v => do
    let [position, procedure, arguments] ← v.parts? ["position", "procedure", "arguments"] | none
    return {
      position := ← positionPart? levels position
      procedure := ← required? string? procedure
      arguments := ← listPart? expr? levels arguments }

/-- A statement. -/
def stmt? : (levels : Nat) → Json → Option Stmt
  | levels + 2, v => do
    let (tag, body) ← v.variant?
    match tag with
    | "Assign" =>
      let [position, target, value] ← body.parts? ["position", "target", "value"] | none
      return .assign (← positionPart? levels position) (← required? (designator? levels) target)
        (← required? (expr? levels) value)
    | "If" =>
      let [position, condition, thenPart, elsePart] ←
        body.parts? ["position", "condition", "then_part", "else_part"] | none
      return .ifElse (← positionPart? levels position) (← required? (expr? levels) condition)
        (← required? (stmt? levels) thenPart) (← required? (stmt? levels) elsePart)
    | "While" =>
      let [position, condition, loop] ← body.parts? ["position", "condition", "body"] | none
      return .whileDo (← positionPart? levels position) (← required? (expr? levels) condition)
        (← required? (stmt? levels) loop)
    | "Call" => return .call (← call? (levels + 1) body)
    | "Compound" =>
      let [position, statements] ← body.parts? ["position", "statements"] | none
      let statements ←
        match levels with
        | 0 => none
        | levels + 1 => required? (elements? (stmt? levels)) statements
      return .compound (← positionPart? levels position) statements
    | "Empty" => return .empty (← position? (levels + 1) body)
    | _ => none
  | _, _ => none

/-- The declaration of a parameter. -/
def paramDecl? : (levels : Nat) → Json → Option ParamDecl
  | 0, _ => none
  | levels + 1, v => do
    let [position, name, type, isReference] ←
      v.parts? ["position", "name", "type_expression", "is_reference"] | none
    return {
      position := ← positionPart? levels position
      name := ← required? string? name
      type := ← required? (typeExpr? levels) type
      isReference := ← optional? false bool? isReference }

/-- The declaration of a procedure. -/
def procDecl? : (levels : Nat) → Json → Option ProcDecl
  | 0, _ => none
  | levels + 1, v => do
    let [position, name, parameters, locals, body] ←
      v.parts? ["position", "name", "parameters", "variables", "body"] | none
    return {
      position := ← positionPart? levels position
      name := ← required? string? name
      parameters := ← listPart? paramDecl? levels parameters
      locals := ← listPart? binding? levels locals
      body := ← listPart? stmt? levels body }

/-- A declaration at the top level. -/
def decl? : (levels : Nat) → Json → Option Decl
  | 0, _ => none
  | levels + 1, v => do
    let (tag, body) ← v.variant?
    match tag with
    | "Type" => return .type (← binding? levels body)
    | "Procedure" => return .procedure (← procDecl? levels body)
    | _ => none

/-- A program. Its declarations must be written. -/
def program? : (levels : Nat) → Json → Option Program
  | 0, _ => none
  | levels + 1, v => do
    let [position, declarations] ← v.parts? ["position", "declarations"] | none
    let declarations ← declarations
    return {
      position := ← positionPart? levels position
      declarations := ← listPart? decl? levels (some declarations) }

/-- How deep arrays and objects may be nested in the text of a program. -/
def maxLevels : Nat := 127

end Json

namespace Program

/-- The program that a JSON value stands for. -/
def ofJson? (v : Json) : Option Program := Json.program? v.depth v

/-- The program that a JSON text stands for. -/
def ofText? (text : String) : Option Program :=
  (Json.read? text).bind (Json.program? Json.maxLevels)

end Program

end Spl
