import Spl.Tree.Operator
import Spl.Tree.Position
import Spl.Tree.TypeSlot
import Spl.Word

/-!
# Syntax trees

The tree of an SPL program. The passes never change its shape: all they write into it are the type
slots of type expressions, expressions and designators.

* `TypeExpr`, `Expr`, `Designator`, `Stmt`: the nodes inside declarations.
* `Binding`, `ParamDecl`, `ProcDecl`, `Decl`, `Program`: the declarations.
* `Stmt.calls`: every call inside a statement, in source order.
-/

namespace Spl

/-- A name bound to what was written for its type: a declared type, a local variable, or a field of
a record. -/
structure Binding (τ : Type) where
  position : Position := {}
  name : String
  type : τ
  deriving DecidableEq, Inhabited

/-- A type as it is written in a declaration. -/
inductive TypeExpr where
  | named (position : Position) (name : String) (slot : TypeSlot)
  | array (position : Position) (size : UInt32) (base : TypeExpr) (slot : TypeSlot)
  | record (position : Position) (fields : List (Binding TypeExpr)) (slot : TypeSlot)
  deriving Inhabited

namespace TypeExpr

/-- Where the type expression is written. -/
def position : TypeExpr → Position
  | .named p .. | .array p .. | .record p .. => p

/-- The slot of the type that the expression denotes. -/
def slot : TypeExpr → TypeSlot
  | .named _ _ s | .array _ _ _ s | .record _ _ s => s

end TypeExpr

mutual

/-- A form that computes a value. -/
inductive Expr where
  | binary (position : Position) (op : BinaryOp) (left right : Expr) (slot : TypeSlot)
  | unary (position : Position) (op : UnaryOp) (operand : Expr) (slot : TypeSlot)
  | literal (position : Position) (value : Word) (slot : TypeSlot)
  | designator (position : Position) (target : Designator) (slot : TypeSlot)
  deriving DecidableEq, Inhabited

/-- A form that denotes a storage location: a name, an element of an array or a field of a
record. -/
inductive Designator where
  | named (position : Position) (name : String) (slot : TypeSlot)
  | element (position : Position) (array : Designator) (index : Expr) (slot : TypeSlot)
  | field (position : Position) (record : Designator) (name : String) (slot : TypeSlot)
  deriving DecidableEq, Inhabited

end

namespace Expr

/-- Where the expression is written. -/
def position : Expr → Position
  | .binary p .. | .unary p .. | .literal p .. | .designator p .. => p

/-- The slot of the type of the expression's value. -/
def slot : Expr → TypeSlot
  | .binary _ _ _ _ s | .unary _ _ _ s | .literal _ _ s | .designator _ _ s => s

/-- The name of the kind of node, for reports. -/
def kind : Expr → String
  | .binary .. => "BinaryExpression"
  | .unary .. => "UnaryExpression"
  | .literal .. => "IntLiteral"
  | .designator .. => "VariableExpression"

/-- The designator that an expression reads, if it is nothing but a read. Only such an expression
can be passed by reference. -/
def designator? : Expr → Option Designator
  | .designator _ target _ => some target
  | .binary .. | .unary .. | .literal .. => none

/-- The type computed for the expression. -/
def type (e : Expr) : Except Fault Ty := e.slot.expect e.kind

end Expr

namespace Designator

/-- Where the designator is written. -/
def position : Designator → Position
  | .named p .. | .element p .. | .field p .. => p

/-- The slot of the type of the denoted location. -/
def slot : Designator → TypeSlot
  | .named _ _ s | .element _ _ _ s | .field _ _ _ s => s

/-- The name of the kind of node, for reports. -/
def kind : Designator → String
  | .named .. => "NamedVariable"
  | .element .. => "ArrayAccess"
  | .field .. => "FieldAccess"

/-- The type computed for the denoted location. -/
def type (d : Designator) : Except Fault Ty := d.slot.expect d.kind

end Designator

/-- A call of a procedure. -/
structure Call where
  position : Position := {}
  procedure : String
  arguments : List Expr
  deriving DecidableEq

/-- A statement. A conditional without an else part has an empty one. -/
inductive Stmt where
  | assign (position : Position) (target : Designator) (value : Expr)
  | ifElse (position : Position) (condition : Expr) (thenPart elsePart : Stmt)
  | whileDo (position : Position) (condition : Expr) (body : Stmt)
  | call (call : Call)
  | compound (position : Position) (statements : List Stmt)
  | empty (position : Position)
  deriving Inhabited

namespace Stmt

/-- Where the statement is written. -/
def position : Stmt → Position
  | .assign p .. | .ifElse p .. | .whileDo p .. | .compound p _ | .empty p => p
  | .call c => c.position

/-- True of the statement that does nothing. -/
def isEmpty : Stmt → Bool
  | .empty _ => true
  | .assign .. | .ifElse .. | .whileDo .. | .call _ | .compound .. => false

mutual

/-- Every call inside a statement at any depth, in source order. -/
def calls : Stmt → List Call
  | .call c => [c]
  | .ifElse _ _ thenPart elsePart => thenPart.calls ++ elsePart.calls
  | .whileDo _ _ body => body.calls
  | .compound _ statements => callsOf statements
  | .assign .. | .empty _ => []

/-- Every call inside a list of statements, in source order. -/
def callsOf : List Stmt → List Call
  | [] => []
  | s :: ss => s.calls ++ callsOf ss

end

end Stmt

/-- A parameter as its procedure declares it. A reference parameter stands for a location of the
caller, any other for a copy of a value. -/
structure ParamDecl extends Binding TypeExpr where
  isReference : Bool := false

/-- The declaration of a procedure. -/
structure ProcDecl where
  position : Position := {}
  name : String
  parameters : List ParamDecl := []
  locals : List (Binding TypeExpr) := []
  body : List Stmt := []

namespace ProcDecl

/-- Every call in the body of a procedure, in source order. -/
def calls (d : ProcDecl) : List Call := Stmt.callsOf d.body

end ProcDecl

/-- A declaration at the top level of a program. -/
inductive Decl where
  | type (declaration : Binding TypeExpr)
  | procedure (declaration : ProcDecl)

namespace Decl

/-- The declared name. -/
def name : Decl → String
  | .type d => d.name
  | .procedure d => d.name

/-- Where the declaration is written. -/
def position : Decl → Position
  | .type d => d.position
  | .procedure d => d.position

/-- The procedure that a declaration declares, if it declares one. -/
def procedure? : Decl → Option ProcDecl
  | .type _ => none
  | .procedure d => some d

end Decl

/-- A program: its declarations in source order. -/
structure Program where
  position : Position := {}
  declarations : List Decl

namespace Program

/-- The procedures of a program in source order. -/
def procedures (p : Program) : List ProcDecl := p.declarations.filterMap Decl.procedure?

end Program

end Spl
