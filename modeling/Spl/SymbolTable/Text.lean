import Spl.SymbolTable.Basic
import Spl.Text
import Spl.Tree.Basic

/-!
# Symbol tables as text

A scope is shown as a heading, a row of column titles and a row for each entry. The dump of a
program shows the local scope of each of its procedures.

* `Entry.text`: the columns of an entry after its name.
* `SymbolTable.scopeText`: a scope.
* `SymbolTable.dump`: the local scopes of a program.
-/

namespace Spl

/-- A number that may be unknown. -/
def optionalText : Option Word → String
  | some n => n.text
  | none => "NULL"

namespace Variable

/-- A parameter as the signature of its procedure shows it. -/
def signatureText (v : Variable) : String := (if v.isReference then "ref " else "") ++ v.type.text

end Variable

namespace Entry

/-- The columns kind, type and offset of an entry. -/
def text : Entry → String
  | .type t => "type | " ++ t.text ++ " | -"
  | .var v =>
    (if v.isReference then "var ref" else "var") ++ " | " ++ v.type.text ++ " | " ++
      optionalText v.offset
  | .proc p =>
    (if p.isBuiltin then "builtin proc" else "proc") ++ " | (" ++
      ", ".intercalate (p.parameters.map Variable.signatureText) ++ ") | -"

end Entry

namespace SymbolTable

/-- The rows that show a scope. -/
def scopeRows (t : SymbolTable) (id : ScopeId) : List String :=
  let s := t.scope id
  let heading :=
    match s.parent? with
    | some parent =>
      "scope " ++ toString id.index ++ " (enclosed by scope " ++ toString parent.index ++ ")"
    | none => "global scope"
  heading ::
    if s.entries.isEmpty then ["\t<empty>"]
    else "\tName | Kind | Type | Offset" ::
      s.entries.map fun (name, entry) => "\t" ++ name ++ " | " ++ entry.text

/-- The text that shows a scope. -/
def scopeText (t : SymbolTable) (id : ScopeId) : String := unlines (t.scopeRows id)

/-- The local scope of a procedure under a heading, and a blank line. -/
def procedureText (t : SymbolTable) (name : String) (p : Procedure) : String :=
  "Symbol table at end of procedure '" ++ name ++ "':\n" ++ t.scopeText p.localScope ++ "\n"

/-- The local scopes of the procedures of a program, in source order. A procedure that the table
does not declare is left out. -/
def dump (t : SymbolTable) (program : Program) : String :=
  String.join <| program.procedures.filterMap fun d =>
    (t.procedure? d.name).map (t.procedureText d.name)

end SymbolTable

end Spl
