import Spl.SymbolTable.Predefined
import Spl.Typing.Basic

/-!
# Entering declarations

The declarations of a program are entered into the predefined table in source order. A type
expression is resolved to the type that it denotes, which is written into the slot of the
expression.

* `TypeExpr.resolve`: the type that a type expression denotes.
* `enterDeclarations`: the table of a program.
-/

namespace Spl

/-- A type that is built from others must have a size that fits in a word. -/
def checkSize (position : Position) (type : Ty) : Verdict Ty :=
  if type.checkedByteSize.isSome then .ok type
  else Failure.report position (.typeTooLarge type)

/-- A name denotes a type if it stands for one. -/
def typeOfName (t : SymbolTable) (scope : ScopeId) (position : Position) (name : String) :
    Verdict Ty :=
  match t.find? scope name with
  | none => Failure.report position (.undefinedType name)
  | some (.type type) => .ok type
  | some (.var _) | some (.proc _) => Failure.report position (.notAType name)

/-- The names of fields are distinct; the first field that repeats one of the names `seen` or of
the fields before it is an error. -/
def checkFieldNames {τ : Type} (seen : List String) : List (Binding τ) → Verdict Unit
  | [] => .ok ()
  | field :: fields =>
    if field.name ∈ seen then Failure.report field.position (.duplicateField field.name)
    else checkFieldNames (field.name :: seen) fields

namespace TypeExpr

mutual

/-- Resolves a type expression at a scope. -/
def resolve (t : SymbolTable) (scope : ScopeId) : TypeExpr → SemanticVisit TypeExpr Ty
  | .named p name slot => conclude slot (.named p name) (typeOfName t scope p name)
  | .array p size base slot =>
    (base.resolve t scope).andThen (.array p size · slot) fun base type =>
      conclude slot (.array p size base) (checkSize p (.array size type))
  | .record p fields slot =>
    match checkFieldNames [] fields with
    | .error e => .fail (.record p fields slot) e
    | .ok () =>
      (resolveFields t scope fields).andThen (.record p · slot) fun fields types =>
        conclude slot (.record p fields) (checkSize p (.record types))

/-- Resolves the types of the fields of a record, up to the first that fails. -/
def resolveFields (t : SymbolTable) (scope : ScopeId) :
    List (Binding TypeExpr) → SemanticVisit (List (Binding TypeExpr)) (List (String × Ty))
  | [] => .pure [] []
  | ⟨p, name, type⟩ :: fields =>
    (type.resolve t scope).andThen (⟨p, name, ·⟩ :: fields) fun type ty =>
      ((resolveFields t scope fields).mapTree (⟨p, name, type⟩ :: ·)).map ((name, ty) :: ·)

end

end TypeExpr

/-- Enters a name that the scope must not declare yet. -/
def enterNew (t : SymbolTable) (scope : ScopeId) (name : String) (entry : Entry)
    (position : Position) (cause : SemanticError) : Verdict SymbolTable :=
  match t.enter? scope name entry with
  | some t => .ok t
  | none => Failure.report position cause

/-- Enters a parameter into the local scope of its procedure. An array or a record is passed by
reference only. -/
def enterParameter (scope : ScopeId) (t : SymbolTable) (d : ParamDecl) :
    SemanticVisit (SymbolTable × ParamDecl) Variable :=
  (d.type.resolve t scope).andThen (fun type => (t, { d with type })) fun type ty =>
    let d := { d with type }
    let v : Variable := { type := ty, isReference := d.isReference }
    let entered : Verdict SymbolTable := do
      if ty.isAggregate ∧ ¬d.isReference then
        Failure.report d.position (.aggregateByValue d.name)
      enterNew t scope d.name (.var v) d.position (.redeclaredAsParameter d.name)
    match entered with
    | .ok t => .pure (t, d) v
    | .error e => .fail (t, d) e

/-- Adds the size of a local variable to the sizes of those before it. The total must fit in a word
also together with the linkage of the frame. -/
def addLocalSize (procedure : String) (position : Position) (before size : Word) : Verdict Word :=
  match before.sum size with
  | .ok total =>
    match total.sum linkageBytes with
    | .ok _ => .ok total
    | .error _ => Failure.report position (.localsTooLarge procedure)
  | .error _ => Failure.report position (.localsTooLarge procedure)

/-- Enters a local variable into the local scope of its procedure. The state is the table and the
size of the local variables before this one. -/
def enterLocal (procedure : String) (scope : ScopeId) (state : SymbolTable × Word)
    (d : Binding TypeExpr) : SemanticVisit ((SymbolTable × Word) × Binding TypeExpr) Unit :=
  let (t, before) := state
  (d.type.resolve t scope).andThen (fun type => (state, { d with type })) fun type ty =>
    let d := { d with type }
    let entered : Verdict (SymbolTable × Word) := do
      let size ← ty.byteSize
      let t ← enterNew t scope d.name (.var { type := ty, isReference := false }) d.position
        (.redeclaredAsVariable d.name)
      return (t, ← addLocalSize procedure d.position before size)
    match entered with
    | .ok state => .pure (state, d) ()
    | .error e => .fail (state, d) e

/-- Enters a type declaration. The name must be new, which is checked before the type is
resolved. -/
def enterType (t : SymbolTable) (d : Binding TypeExpr) :
    SemanticVisit (Binding TypeExpr) SymbolTable :=
  if (t.find? SymbolTable.global d.name).isSome then
    .fail d (.error ⟨d.position, .redeclaredAsType d.name⟩)
  else
    (d.type.resolve t SymbolTable.global).andThen ({ d with type := · }) fun type ty =>
      ⟨{ d with type },
        enterNew t SymbolTable.global d.name (.type ty) d.position (.redeclaredAsType d.name)⟩

/-- Enters a procedure declaration: its parameters and local variables into a local scope of its
own, and then the procedure itself. -/
def enterProcedure (t : SymbolTable) (d : ProcDecl) : SemanticVisit ProcDecl SymbolTable :=
  let (scope, t) := t.newScope SymbolTable.global
  (Visit.thread (enterParameter scope) t d.parameters).andThen
    (fun (_, parameters) => { d with parameters }) fun (t, parameters) signature =>
      (Visit.thread (enterLocal d.name scope) (t, 0) d.locals).andThen
        (fun (_, locals) => { d with parameters, locals }) fun ((t, _), locals) _ =>
          ⟨{ d with parameters, locals },
            enterNew t SymbolTable.global d.name
              (.proc { localScope := scope, parameters := signature })
              d.position (.redeclaredAsProcedure d.name)⟩

/-- Enters a declaration. -/
def enterDeclaration (t : SymbolTable) (d : Decl) : SemanticVisit (SymbolTable × Decl) Unit :=
  let v :=
    match d with
    | .type d => (enterType t d).mapTree Decl.type
    | .procedure d => (enterProcedure t d).mapTree Decl.procedure
  v.andThen (fun d => (t, d)) fun d t => .pure (t, d) ()

/-- The entry point is declared in the program, as a procedure without parameters. -/
def checkEntry (entry : String) (program : Program) : Verdict Unit :=
  match program.declarations.find? (·.name = entry) with
  | none => Failure.report program.position (.entryMissing entry)
  | some (.type d) => Failure.report d.position (.entryNotAProcedure entry)
  | some (.procedure d) =>
    if d.parameters.isEmpty then .ok ()
    else Failure.report d.position (.entryWithParameters entry)

/-- The table of a program: the predefined names and what the program declares. -/
def enterDeclarations (entry : String) (program : Program) : SemanticVisit Program SymbolTable :=
  (Visit.thread enterDeclaration .predefined program.declarations).andThen
    (fun (_, declarations) => { program with declarations }) fun (t, declarations) _ =>
      ⟨{ program with declarations }, do
        checkEntry entry program
        return t⟩

end Spl
