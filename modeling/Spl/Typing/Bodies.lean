import Spl.Typing.Rules

/-!
# Checking procedure bodies

The check of a program walks over the body of each procedure, computes the type of each expression
and designator from the inside out, and writes it into the slot of the node. Every compound
statement gets an empty scope of its own in the table.

* `Expr.check`, `Designator.check`, `Stmt.check`: the walk over a body.
* `checkBodies`: the check of a program.
-/

namespace Spl

mutual

/-- Checks an expression at a scope. -/
def Expr.check (t : SymbolTable) (scope : ScopeId) :
    Expr → SemanticVisit Expr Ty
  | .literal p value slot => conclude slot (.literal p value) (.ok .int)
  | .designator p target slot =>
    (target.check t scope).andThen (.designator p · slot) fun target type =>
      conclude slot (.designator p target) (.ok type)
  | .unary p op operand slot =>
    (operand.check t scope).andThen (.unary p op · slot) fun operand type =>
      conclude slot (.unary p op operand) (typeOfUnary p op type)
  | .binary p op left right slot =>
    (left.check t scope).andThen (.binary p op · right slot) fun left leftType =>
      (right.check t scope).andThen (.binary p op left · slot) fun right rightType =>
        conclude slot (.binary p op left right) (typeOfBinary p op leftType rightType)

/-- Checks a designator at a scope. The index of an element is checked before its array. -/
def Designator.check (t : SymbolTable) (scope : ScopeId) :
    Designator → SemanticVisit Designator Ty
  | .named p name slot => conclude slot (.named p name) (typeOfVariable t scope p name)
  | .element p array index slot =>
    (index.check t scope).andThen (.element p array · slot) fun index indexType =>
      match checkIndex p indexType with
      | .error e => .fail (.element p array index slot) e
      | .ok () =>
        (array.check t scope).andThen (.element p · index slot) fun array arrayType =>
          conclude slot (.element p array index) (typeOfElement p arrayType)
  | .field p record name slot =>
    (record.check t scope).andThen (.field p · name slot) fun record recordType =>
      conclude slot (.field p record name) (typeOfField p name recordType)

end

namespace Call

/-- Checks a call at a scope. All arguments get their types before they are counted and compared
with the parameters. -/
def check (t : SymbolTable) (scope : ScopeId) (c : Call) :
    SemanticVisit Call Unit :=
  match parametersOf t scope c with
  | .error e => .fail c e
  | .ok parameters =>
    (Visit.list (·.check t scope) c.arguments).andThen ({ c with arguments := · })
      fun arguments types =>
        ⟨{ c with arguments }, do
          checkCount c parameters
          checkArguments c.procedure 1 arguments types parameters⟩

end Call

namespace Stmt

mutual

/-- Checks a statement at a scope. -/
def check (scope : ScopeId) (t : SymbolTable) :
    Stmt → SemanticVisit (SymbolTable × Stmt) Unit
  | .assign p target value =>
    (target.check t scope).andThen (fun target => (t, .assign p target value))
      fun target targetType =>
        (value.check t scope).andThen (fun value => (t, .assign p target value))
          fun value valueType =>
            ⟨(t, .assign p target value), checkAssignment p targetType valueType⟩
  | .ifElse p condition thenPart elsePart =>
    (condition.check t scope).andThen (fun condition => (t, .ifElse p condition thenPart elsePart))
      fun condition type =>
        match checkCondition p .ifCondition type with
        | .error e => .fail (t, .ifElse p condition thenPart elsePart) e
        | .ok () =>
          (thenPart.check scope t).andThen
            (fun (t, thenPart) => (t, .ifElse p condition thenPart elsePart))
            fun (t, thenPart) _ =>
              (elsePart.check scope t).mapTree
                fun (t, elsePart) => (t, .ifElse p condition thenPart elsePart)
  | .whileDo p condition body =>
    (condition.check t scope).andThen (fun condition => (t, .whileDo p condition body))
      fun condition type =>
        match checkCondition p .whileCondition type with
        | .error e => .fail (t, .whileDo p condition body) e
        | .ok () => (body.check scope t).mapTree fun (t, body) => (t, .whileDo p condition body)
  | .call c => (c.check t scope).mapTree fun c => (t, .call c)
  | .compound p statements =>
    let (inner, t) := t.newScope scope
    (checkList inner t statements).mapTree fun (t, statements) => (t, .compound p statements)
  | .empty p => .pure (t, .empty p) ()

/-- Checks a list of statements at a scope, up to the first that fails. -/
def checkList (scope : ScopeId) (t : SymbolTable) :
    List Stmt → SemanticVisit (SymbolTable × List Stmt) Unit
  | [] => .pure (t, []) ()
  | s :: ss =>
    (s.check scope t).andThen (fun (t, s) => (t, s :: ss)) fun (t, s) _ =>
      (checkList scope t ss).mapTree fun (t, ss) => (t, s :: ss)

end

end Stmt

namespace Decl

/-- Checks the body of a procedure at the procedure's local scope. A type declaration has no
body. -/
def checkBody (t : SymbolTable) :
    Decl → SemanticVisit (SymbolTable × Decl) Unit
  | .type d => .pure (t, .type d) ()
  | .procedure d =>
    match t.procedure? d.name with
    | none => .fail (t, .procedure d) (.fault (.procedureNotEntered d.name))
    | some p =>
      (Stmt.checkList p.localScope t d.body).mapTree
        fun (t, body) => (t, .procedure { d with body })

end Decl

/-- Checks the bodies of all procedures of a program, in source order. The table is one in which the
declarations of the program have been entered. -/
def checkBodies (t : SymbolTable) (program : Program) :
    SemanticVisit (SymbolTable × Program) Unit :=
  ((Visit.thread Decl.checkBody t program.declarations).mapTree
    fun (t, declarations) => (t, { program with declarations })).map fun _ => ()

end Spl
