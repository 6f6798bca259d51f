import Spl.Tree.Basic

/-!
# New trees

A tree is fresh when all of its type slots are empty, as they are in a tree that no pass has
visited yet.

* `Program.isFresh`: true of a program with empty slots; likewise of each kind of node.
-/

namespace Spl

/-- True of a slot without a type. -/
def TypeSlot.isEmpty (slot : TypeSlot) : Bool := slot.type?.isNone

theorem TypeSlot.type?_of_isEmpty {slot : TypeSlot} (h : slot.isEmpty = true) :
    slot.type? = none := Option.isNone_iff_eq_none.1 h

namespace TypeExpr

mutual

/-- True of a type expression with empty slots. -/
def isFresh : TypeExpr → Bool
  | .named _ _ slot => slot.isEmpty
  | .array _ _ base slot => slot.isEmpty && base.isFresh
  | .record _ fields slot => slot.isEmpty && fieldsFresh fields

/-- True of fields whose types have empty slots. -/
def fieldsFresh : List (Binding TypeExpr) → Bool
  | [] => true
  | ⟨_, _, type⟩ :: fields => type.isFresh && fieldsFresh fields

end

end TypeExpr

mutual

/-- True of an expression with empty slots. -/
def Expr.isFresh : Expr → Bool
  | .binary _ _ left right slot => slot.isEmpty && left.isFresh && right.isFresh
  | .unary _ _ operand slot => slot.isEmpty && operand.isFresh
  | .literal _ _ slot => slot.isEmpty
  | .designator _ target slot => slot.isEmpty && target.isFresh

/-- True of a designator with empty slots. -/
def Designator.isFresh : Designator → Bool
  | .named _ _ slot => slot.isEmpty
  | .element _ array index slot => slot.isEmpty && array.isFresh && index.isFresh
  | .field _ record _ slot => slot.isEmpty && record.isFresh

end

namespace Stmt

mutual

/-- True of a statement with empty slots. -/
def isFresh : Stmt → Bool
  | .assign _ target value => target.isFresh && value.isFresh
  | .ifElse _ condition thenPart elsePart =>
    condition.isFresh && thenPart.isFresh && elsePart.isFresh
  | .whileDo _ condition body => condition.isFresh && body.isFresh
  | .call c => c.arguments.all Expr.isFresh
  | .compound _ statements => allFresh statements
  | .empty _ => true

/-- True of statements with empty slots. -/
def allFresh : List Stmt → Bool
  | [] => true
  | s :: ss => s.isFresh && allFresh ss

end

end Stmt

namespace ProcDecl

/-- True of a procedure with empty slots, both in its declarations and in its body. -/
def isFresh (d : ProcDecl) : Bool :=
  d.parameters.all (·.type.isFresh) && d.locals.all (·.type.isFresh) && Stmt.allFresh d.body

end ProcDecl

namespace Decl

/-- True of a declaration with empty slots. -/
def isFresh : Decl → Bool
  | .type d => d.type.isFresh
  | .procedure d => d.isFresh

end Decl

namespace Program

/-- True of a program with empty slots. -/
def isFresh (p : Program) : Bool := p.declarations.all Decl.isFresh

end Program

end Spl
