import Spl.Tree.Basic

/-!
# Renaming variables

The variables of a tree get other names. Positions, slots, and the names of types, of fields and of
procedures stay as they are.

* `Expr.rename`, `Stmt.rename`: forms in bodies; names that stay the same leave the form as it is.
* `ProcDecl.rename`: a procedure with its parameters and local variables.
* `Program.rename`: a program in which one procedure is renamed.
-/

namespace Spl

/-! ## Bodies -/

mutual

/-- An expression with other names of variables. -/
def Expr.rename (ρ : String → String) : Expr → Expr
  | .binary p op left right slot => .binary p op (left.rename ρ) (right.rename ρ) slot
  | .unary p op operand slot => .unary p op (operand.rename ρ) slot
  | .literal p value slot => .literal p value slot
  | .designator p target slot => .designator p (target.rename ρ) slot

/-- A designator with other names of variables. -/
def Designator.rename (ρ : String → String) : Designator → Designator
  | .named p name slot => .named p (ρ name) slot
  | .element p array index slot => .element p (array.rename ρ) (index.rename ρ) slot
  | .field p record name slot => .field p (record.rename ρ) name slot

end

/-- A call with other names of variables. -/
def Call.rename (ρ : String → String) (c : Call) : Call :=
  { c with arguments := c.arguments.map (·.rename ρ) }

namespace Stmt

mutual

/-- A statement with other names of variables. -/
def rename (ρ : String → String) : Stmt → Stmt
  | .assign p target value => .assign p (target.rename ρ) (value.rename ρ)
  | .ifElse p condition thenPart elsePart =>
    .ifElse p (condition.rename ρ) (thenPart.rename ρ) (elsePart.rename ρ)
  | .whileDo p condition body => .whileDo p (condition.rename ρ) (body.rename ρ)
  | .call c => .call (c.rename ρ)
  | .compound p statements => .compound p (renameOf ρ statements)
  | .empty p => .empty p

/-- Statements with other names of variables. -/
def renameOf (ρ : String → String) : List Stmt → List Stmt
  | [] => []
  | s :: ss => s.rename ρ :: renameOf ρ ss

end

end Stmt

variable {ρ : String → String}

@[simp]
theorem Expr.slot_rename (e : Expr) : (e.rename ρ).slot = e.slot := by
  cases e <;> simp only [rename, slot]

@[simp]
theorem Designator.slot_rename (d : Designator) : (d.rename ρ).slot = d.slot := by
  cases d <;> simp only [rename, slot]

@[simp]
theorem Expr.position_rename (e : Expr) : (e.rename ρ).position = e.position := by
  cases e <;> simp only [rename, position]

@[simp]
theorem Designator.type_rename (d : Designator) : (d.rename ρ).type = d.type := by
  cases d <;> simp only [rename, type, slot, kind]

@[simp]
theorem Expr.designator?_rename (e : Expr) :
    (e.rename ρ).designator? = e.designator?.map (·.rename ρ) := by
  cases e <;> simp only [rename, designator?, Option.map_some, Option.map_none]

namespace Stmt

@[simp]
theorem isEmpty_rename (s : Stmt) : (s.rename ρ).isEmpty = s.isEmpty := by
  cases s <;> simp only [rename, isEmpty]

mutual

/-- Renaming keeps the calls of a statement, in their order. -/
theorem calls_rename : ∀ s : Stmt, (s.rename ρ).calls = s.calls.map (·.rename ρ)
  | .assign .. => by rw [rename, calls, calls, List.map_nil]
  | .ifElse _ _ thenPart elsePart => by
    rw [rename, calls, calls, calls_rename thenPart, calls_rename elsePart, List.map_append]
  | .whileDo _ _ body => by rw [rename, calls, calls, calls_rename body]
  | .call _ => by rw [rename, calls, calls, List.map_singleton]
  | .compound _ ss => by rw [rename, calls, calls, callsOf_rename ss]
  | .empty _ => by rw [rename, calls, List.map_nil]

theorem callsOf_rename : ∀ ss : List Stmt, callsOf (renameOf ρ ss) = (callsOf ss).map (·.rename ρ)
  | [] => by rw [renameOf, callsOf, List.map_nil]
  | s :: ss => by
    rw [renameOf, callsOf, callsOf, calls_rename s, callsOf_rename ss, List.map_append]

end

end Stmt

/-! ### Names that stay the same -/

mutual

theorem Expr.rename_id : ∀ e : Expr, e.rename id = e
  | .binary _ _ l r _ => by rw [Expr.rename, l.rename_id, r.rename_id]
  | .unary _ _ e _ => by rw [Expr.rename, e.rename_id]
  | .literal .. => by rw [Expr.rename]
  | .designator _ d _ => by rw [Expr.rename, d.rename_id]

theorem Designator.rename_id : ∀ d : Designator, d.rename id = d
  | .named .. => by rw [Designator.rename, id]
  | .element _ a i _ => by rw [Designator.rename, a.rename_id, i.rename_id]
  | .field _ r _ _ => by rw [Designator.rename, r.rename_id]

end

theorem Call.rename_id (c : Call) : c.rename id = c := by
  have hargs : c.arguments.map (·.rename id) = c.arguments := by
    simp only [Expr.rename_id, List.map_id']
  rw [rename, hargs]

namespace Stmt

mutual

theorem rename_id : ∀ s : Stmt, s.rename id = s
  | .assign _ d e => by rw [rename, d.rename_id, e.rename_id]
  | .ifElse _ e s s' => by rw [rename, e.rename_id, rename_id s, rename_id s']
  | .whileDo _ e s => by rw [rename, e.rename_id, rename_id s]
  | .call c => by rw [rename, c.rename_id]
  | .compound _ ss => by rw [rename, renameOf_id ss]
  | .empty _ => by rw [rename]

theorem renameOf_id : ∀ ss : List Stmt, renameOf id ss = ss
  | [] => by rw [renameOf]
  | s :: ss => by rw [renameOf, rename_id s, renameOf_id ss]

end

end Stmt

/-! ## Declarations -/

namespace ProcDecl

/-- A procedure in which the parameters and the local variables have other names. -/
def rename (ρ : String → String) (d : ProcDecl) : ProcDecl :=
  { d with
    parameters := d.parameters.map fun b => { b with name := ρ b.name }
    locals := d.locals.map fun b => { b with name := ρ b.name }
    body := Stmt.renameOf ρ d.body }

theorem calls_rename (d : ProcDecl) : (d.rename ρ).calls = d.calls.map (·.rename ρ) :=
  Stmt.callsOf_rename d.body

end ProcDecl

/-- A declaration in which the procedure `name` has other names of variables. -/
def Decl.rename (name : String) (ρ : String → String) : Decl → Decl
  | .type d => .type d
  | .procedure d => .procedure (if d.name = name then d.rename ρ else d)

/-- A program in which the procedure `name` has other names of variables. -/
def Program.rename (name : String) (ρ : String → String) (p : Program) : Program :=
  { p with declarations := p.declarations.map (Decl.rename name ρ) }

end Spl
