import Spl.Tree.Basic

/-!
# Building syntax trees

Short forms for writing syntax trees by hand. Type slots are empty, and the position of a node is
`0:0` unless it is given.
-/

namespace Spl

namespace Build

/-! ## Declarations -/

/-- A program. -/
def program (declarations : List Decl) : Program := { declarations }

/-- The declaration of a type. -/
def typeDecl (name : String) (type : TypeExpr) (position : Position := {}) : Decl :=
  .type { position, name, type }

/-- The declaration of a procedure. -/
def procDecl (name : String) (parameters : List ParamDecl) (locals : List (Binding TypeExpr))
    (body : List Stmt) (position : Position := {}) : Decl :=
  .procedure { position, name, parameters, locals, body }

/-- A parameter that is passed by value. -/
def param (name : String) (type : TypeExpr) : ParamDecl := { name, type }

/-- A parameter that is passed by reference. -/
def refParam (name : String) (type : TypeExpr) : ParamDecl := { name, type, isReference := true }

/-- A local variable, or a field of a record. -/
def varDecl (name : String) (type : TypeExpr) (position : Position := {}) : Binding TypeExpr :=
  { position, name, type }

/-! ## Type expressions -/

/-- A type by its name. -/
def namedType (name : String) : TypeExpr := .named {} name {}

/-- The type `int`, by its name. -/
def intType : TypeExpr := namedType "int"

/-- An array type. -/
def arrayType (size : UInt32) (base : TypeExpr) : TypeExpr := .array {} size base {}

/-- A record type. -/
def recordType (fields : List (Binding TypeExpr)) : TypeExpr := .record {} fields {}

/-! ## Statements -/

/-- The statement that does nothing. -/
def empty : Stmt := .empty {}

/-- An assignment. -/
def assign (target : Designator) (value : Expr) (position : Position := {}) : Stmt :=
  .assign position target value

/-- A conditional statement. -/
def ifElse (condition : Expr) (thenPart elsePart : Stmt) : Stmt :=
  .ifElse {} condition thenPart elsePart

/-- A conditional statement without an else part. -/
def ifThen (condition : Expr) (thenPart : Stmt) : Stmt := ifElse condition thenPart empty

/-- A loop. -/
def whileDo (condition : Expr) (body : Stmt) : Stmt := .whileDo {} condition body

/-- A call. -/
def call (procedure : String) (arguments : List Expr) (position : Position := {}) : Stmt :=
  .call { position, procedure, arguments }

/-- A list of statements. -/
def compound (statements : List Stmt) : Stmt := .compound {} statements

/-! ## Expressions and designators -/

/-- An integer literal. -/
def int (value : Word) : Expr := .literal {} value {}

/-- A binary operator and its operands. -/
def binary (op : BinaryOp) (left right : Expr) (position : Position := {}) : Expr :=
  .binary position op left right {}

/-- A minus sign and its operand. -/
def neg (operand : Expr) : Expr := .unary {} .minus operand {}

/-- A designator that is read; its position is that of the designator. -/
def var (target : Designator) : Expr := .designator target.position target {}

/-- A variable by its name. -/
def named (name : String) : Designator := .named {} name {}

/-- An element of an array. -/
def index (array : Designator) (index : Expr) : Designator := .element {} array index {}

/-- A field of a record. -/
def field (record : Designator) (name : String) : Designator := .field {} record name {}

end Build

end Spl
