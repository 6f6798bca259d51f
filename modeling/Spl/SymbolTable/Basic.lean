import Spl.Frame.Layout

/-!
# The symbol table

The table holds every scope that arose while a program was compiled, in the order of their
creation, and each scope its entries in the order of their entry. Scope 0 is the global scope. A
name is looked up in a scope and then in the scopes around it, from the inside out.

* `SymbolTable.newScope`, `SymbolTable.enter?`: the two ways in which a table grows.
* `SymbolTable.find?`: the entry that a name denotes at a scope.
* `SymbolTable.update`, `SymbolTable.updateProcedure`, `SymbolTable.updateLocal`: changes of an
  entry in place.
-/

namespace Spl

/-- A scope, by its number in the order of creation. -/
structure ScopeId where
  index : Nat
  deriving DecidableEq, Inhabited

/-- A parameter or a local variable, as its own procedure or its callers see it. The offset counts
from the frame pointer of the procedure and is unknown before allocation. -/
structure Variable where
  type : Ty
  isReference : Bool
  offset : Option Word := none
  deriving DecidableEq

namespace Variable

/-- The bytes that a parameter takes among the arguments of a call: one word for the address of a
reference, the whole value otherwise. -/
def footprint (v : Variable) : Except Fault Word :=
  if v.isReference then .ok wordBytes else v.type.byteSize

end Variable

/-- A procedure: its local scope, its parameters as callers see them, and its frame. A builtin is
part of the runtime library and has no body. -/
structure Procedure where
  localScope : ScopeId
  parameters : List Variable
  layout : FrameLayout := {}
  isBuiltin : Bool := false
  deriving DecidableEq

/-- The bytes of the given parameters, added to those of the parameters before them. -/
def argumentBytesFrom (before : Word) : List Variable → Except Fault Word
  | [] => .ok before
  | v :: vs => do argumentBytesFrom (← before.sum (← v.footprint)) vs

namespace Procedure

/-- The bytes that a caller reserves for the arguments of a call. -/
def argumentBytes (p : Procedure) : Except Fault Word := argumentBytesFrom 0 p.parameters

end Procedure

/-- What a name stands for. -/
inductive Entry where
  | type (type : Ty)
  | var (v : Variable)
  | proc (p : Procedure)
  deriving DecidableEq

namespace Entry

/-- The kind of an entry. -/
def kind : Entry → String
  | .type _ => "type"
  | .var _ => "var"
  | .proc _ => "proc"

/-- The variable of a variable's entry. -/
def var? : Entry → Option Variable
  | .var v => some v
  | .type _ | .proc _ => none

/-- The procedure of a procedure's entry. -/
def proc? : Entry → Option Procedure
  | .proc p => some p
  | .type _ | .var _ => none

/-- Changes the variable of a variable's entry. -/
def mapVariable (f : Variable → Variable) : Entry → Entry
  | .var v => .var (f v)
  | .type t => .type t
  | .proc p => .proc p

/-- Changes the procedure of a procedure's entry. -/
def mapProcedure (f : Procedure → Procedure) : Entry → Entry
  | .proc p => .proc (f p)
  | .type t => .type t
  | .var v => .var v

end Entry

/-- A scope: the scopes around it, from the inside out, and its own entries in the order of their
entry. -/
structure Scope where
  enclosing : List ScopeId := []
  entries : List (String × Entry) := []
  deriving DecidableEq, Inhabited

namespace Scope

/-- The scope directly around this one; the global scope has none. -/
def parent? (s : Scope) : Option ScopeId := s.enclosing.head?

/-- The entry of a name in this scope itself. -/
def get? (s : Scope) (name : String) : Option Entry := s.entries.lookup name

/-- True when the scope itself has an entry of the name. -/
def declares (s : Scope) (name : String) : Bool := (s.get? name).isSome

/-- Adds an entry after the others. -/
def add (s : Scope) (name : String) (entry : Entry) : Scope :=
  { s with entries := s.entries ++ [(name, entry)] }

/-- Changes the entry of a name. -/
def update (s : Scope) (name : String) (f : Entry → Entry) : Scope :=
  { s with entries := s.entries.map fun p => if p.1 = name then (p.1, f p.2) else p }

end Scope

/-- The scopes of a compilation, in the order of their creation. -/
structure SymbolTable where
  scopes : List Scope
  deriving DecidableEq, Inhabited

namespace SymbolTable

/-- The global scope. -/
def global : ScopeId := ⟨0⟩

/-- The table with nothing but an empty global scope. -/
def empty : SymbolTable := ⟨[{}]⟩

/-- A scope of the table. A number that the table never gave out names an empty scope. -/
def scope (t : SymbolTable) (id : ScopeId) : Scope := t.scopes[id.index]?.getD {}

/-- Changes one scope. -/
def modifyScope (t : SymbolTable) (id : ScopeId) (f : Scope → Scope) : SymbolTable :=
  ⟨t.scopes.modify id.index f⟩

/-- Creates an empty scope inside `parent`. -/
def newScope (t : SymbolTable) (parent : ScopeId) : ScopeId × SymbolTable :=
  (⟨t.scopes.length⟩, ⟨t.scopes ++ [{ enclosing := parent :: (t.scope parent).enclosing }]⟩)

/-- Adds an entry to a scope, unless that scope has one of the same name already. The scopes around
it do not matter. -/
def enter? (t : SymbolTable) (id : ScopeId) (name : String) (entry : Entry) :
    Option SymbolTable :=
  if (t.scope id).declares name then none else some (t.modifyScope id (·.add name entry))

/-- A scope and the scopes around it, from the inside out. -/
def chain (t : SymbolTable) (id : ScopeId) : List ScopeId := id :: (t.scope id).enclosing

/-- The innermost scope on the way out from `id` that declares the name. -/
def declaring? (t : SymbolTable) (id : ScopeId) (name : String) : Option ScopeId :=
  (t.chain id).find? fun s => (t.scope s).declares name

/-- The entry that a name denotes at the scope `id`. -/
def find? (t : SymbolTable) (id : ScopeId) (name : String) : Option Entry :=
  (t.chain id).findSome? fun s => (t.scope s).get? name

/-- Changes the entry that a name denotes at the scope `id`; does nothing if it denotes none. -/
def update (t : SymbolTable) (id : ScopeId) (name : String) (f : Entry → Entry) : SymbolTable :=
  match t.declaring? id name with
  | some s => t.modifyScope s (·.update name f)
  | none => t

/-- The procedure that the global scope declares under the name. -/
def procedure? (t : SymbolTable) (name : String) : Option Procedure :=
  ((t.scope global).get? name).bind Entry.proc?

/-- Changes a procedure of the global scope. -/
def updateProcedure (t : SymbolTable) (name : String) (f : Procedure → Procedure) : SymbolTable :=
  t.update global name (·.mapProcedure f)

/-- The variable that a scope itself declares under the name. -/
def local? (t : SymbolTable) (id : ScopeId) (name : String) : Option Variable :=
  ((t.scope id).get? name).bind Entry.var?

/-- Changes a variable that a scope itself declares. -/
def updateLocal (t : SymbolTable) (id : ScopeId) (name : String) (f : Variable → Variable) :
    SymbolTable :=
  t.modifyScope id (·.update name (·.mapVariable f))

end SymbolTable

end Spl
