import Mathlib.Data.List.Forall2
import Spl.Proofs.SymbolTable.Growth
import Spl.Proofs.Ty.Size
import Spl.SymbolTable.Predefined
import Spl.Tree.Basic

/-!
# Tables of programs

What the table of a program holds: a global scope with the predefined names and the declared ones,
and for every procedure a local scope of its own with its parameters and local variables.

* `SymbolTable.Declares`: a table holds a procedure as it is declared.
* `SymbolTable.Holds`: a table holds the predefined names and the given procedures.
* `SymbolTable.Declares.grow`: what a table declares it still declares when it has grown.
* `SymbolTable.Declares.find?_local`, `SymbolTable.Declares.find?_proc`: the meaning of names inside
  a procedure.
-/

namespace Spl

namespace TypeExpr

/-- The bytes of the type in the slot of a type expression. -/
def bytes (e : TypeExpr) : Nat := (e.slot.type?.map Ty.bytes).getD 0

end TypeExpr

namespace ProcDecl

/-- A procedure without its body. -/
def head (d : ProcDecl) : ProcDecl := { d with body := [] }

/-- The names of the parameters and local variables, in the order of their declaration. -/
def names (d : ProcDecl) : List String :=
  d.parameters.map (·.name) ++ d.locals.map (·.name)

/-- The bytes of the given declarations. -/
def bytesOf : List (Binding TypeExpr) → Nat
  | [] => 0
  | b :: bs => b.type.bytes + bytesOf bs

theorem bytesOf_append (bs bs' : List (Binding TypeExpr)) :
    bytesOf (bs ++ bs') = bytesOf bs + bytesOf bs' := by
  induction bs with
  | nil => exact (Nat.zero_add _).symm
  | cons b bs ih => rw [List.cons_append, bytesOf, ih, bytesOf, Nat.add_assoc]

/-- The bytes of the local variables. -/
def localBytes (d : ProcDecl) : Nat := bytesOf d.locals

@[simp]
theorem head_name (d : ProcDecl) : d.head.name = d.name := rfl

@[simp]
theorem head_parameters (d : ProcDecl) : d.head.parameters = d.parameters := rfl

@[simp]
theorem head_locals (d : ProcDecl) : d.head.locals = d.locals := rfl

end ProcDecl

namespace Program

/-- The procedures of a program without their bodies. -/
def heads (p : Program) : List ProcDecl := p.procedures.map ProcDecl.head

end Program

/-- What typing sees of a variable: its type, and whether it is a reference. -/
def Variable.view (v : Variable) : Ty × Bool := (v.type, v.isReference)

/-- A variable is what a parameter declaration declares: a reference or a single word. -/
structure Variable.Realizes (v : Variable) (b : ParamDecl) : Prop where
  isReference : v.isReference = b.isReference
  fits : v.type.Fits
  word : v.isReference = false → v.type.isAggregate = false

namespace SymbolTable

/-- The table holds the procedure `P` for the declaration `d`. -/
structure Declares (t : SymbolTable) (d : ProcDecl) (P : Procedure) : Prop where
  procedure : t.procedure? d.name = some P
  hasScope : t.HasScope P.localScope
  ne_global : P.localScope ≠ global
  enclosing : (t.scope P.localScope).enclosing = [global]
  nodup : d.names.Nodup
  parameters : List.Forall₂
    (fun b v => v.Realizes b ∧ ∃ w, t.local? P.localScope b.name = some w ∧ w.view = v.view)
    d.parameters P.parameters
  locals : ∀ b ∈ d.locals, ∃ v, t.local? P.localScope b.name = some v ∧
    v.isReference = false ∧ b.type.slot.type? = some v.type
  only : ∀ name e, (t.scope P.localScope).get? name = some e →
    name ∈ d.names ∧ ∃ v, e = .var v ∧ v.type.Fits
  room : d.localBytes + 8 ≤ Word.maxNat

/-- The table holds the predefined names and exactly the procedures `ds`. -/
structure Holds (t : SymbolTable) (ds : List ProcDecl) : Prop where
  hasScope : t.HasScope global
  enclosing : (t.scope global).enclosing = []
  nodup : (ds.map (·.name)).Nodup
  declares : ∀ d ∈ ds, ∃ P, t.Declares d P
  separate : ∀ d ∈ ds, ∀ d' ∈ ds, ∀ P P', t.Declares d P → t.Declares d' P' →
    P.localScope = P'.localScope → d.name = d'.name
  builtins : ∀ b ∈ builtins, ∃ P, t.procedure? b.name = some P ∧ P.parameters = b.signature
  notBuiltin : ∀ d ∈ ds, ∀ b ∈ Spl.builtins, d.name ≠ b.name
  only : ∀ name e, (t.scope global).get? name = some e →
    (∃ ty, e = .type ty ∧ ty.Fits) ∨ (∃ P, e = .proc P) ∧
      ((∃ b ∈ Spl.builtins, b.name = name) ∨ ∃ d ∈ ds, d.name = name)

/-! ## Growth -/

/-- The second table has all that the first one has. Only the global scope has got new entries. -/
structure Grows (t t' : SymbolTable) : Prop where
  hasScope : ∀ id, t.HasScope id → t'.HasScope id
  scope : ∀ id, t.HasScope id → id ≠ global → t'.scope id = t.scope id
  enclosing : (t'.scope global).enclosing = (t.scope global).enclosing
  get? : ∀ name e, (t.scope global).get? name = some e → (t'.scope global).get? name = some e

variable {t t' : SymbolTable} {d : ProcDecl} {P : Procedure} {ds : List ProcDecl}

theorem Extends.grows (h : t.Extends t') (hg : t.HasScope global) : t.Grows t' where
  hasScope _ hs := h.hasScope hs
  scope _ hs _ := h.scope_eq hs
  enclosing := by rw [h.scope_eq hg]
  get? _ _ he := by rw [h.scope_eq hg]; exact he

theorem procedure?_eq_some_iff {name : String} :
    t.procedure? name = some P ↔ (t.scope global).get? name = some (.proc P) := by
  unfold procedure?
  cases (t.scope global).get? name with
  | none => simp
  | some e => cases e <;> simp [Entry.proc?]

theorem local?_eq_some_iff {id : ScopeId} {name : String} {v : Variable} :
    t.local? id name = some v ↔ (t.scope id).get? name = some (.var v) := by
  unfold local?
  cases (t.scope id).get? name with
  | none => simp
  | some e => cases e <;> simp [Entry.var?]

theorem Grows.procedure? (h : t.Grows t') {name : String} (hP : t.procedure? name = some P) :
    t'.procedure? name = some P :=
  procedure?_eq_some_iff.2 (h.get? _ _ (procedure?_eq_some_iff.1 hP))

/-- What a table declares it still declares when it has grown. -/
theorem Declares.grow (h : t.Declares d P) (hg : t.Grows t') : t'.Declares d P := by
  have hs : t'.scope P.localScope = t.scope P.localScope := hg.scope _ h.hasScope h.ne_global
  have hl : ∀ name, t'.local? P.localScope name = t.local? P.localScope name := by
    intro name
    rw [local?, hs, local?]
  exact
    { procedure := hg.procedure? h.procedure
      hasScope := hg.hasScope _ h.hasScope
      ne_global := h.ne_global
      enclosing := by rw [hs]; exact h.enclosing
      nodup := h.nodup
      parameters := h.parameters.imp fun b v hv => ⟨hv.1, by simpa only [hl] using hv.2⟩
      locals := fun b hb => by simpa only [hl] using h.locals b hb
      only := by rw [hs]; exact h.only
      room := h.room }

/-- A declared procedure is held once. -/
theorem Declares.unique {P' : Procedure} (h : t.Declares d P) (h' : t.Declares d P') : P = P' :=
  Option.some.inj (h.procedure.symm.trans h'.procedure)

/-! ## The meaning of names inside a procedure -/

theorem Declares.chain (h : t.Declares d P) : t.chain P.localScope = [P.localScope, global] := by
  rw [SymbolTable.chain, h.enclosing]

theorem Declares.closed (h : t.Declares d P) (hg : t.HasScope global) :
    t.Closed P.localScope := by
  intro s hs
  rw [h.chain] at hs
  simp only [List.mem_cons, List.not_mem_nil, or_false] at hs
  rcases hs with rfl | rfl
  · exact h.hasScope
  · exact hg

/-- Directly inside the global scope, a name is looked up in two scopes. -/
theorem find?_of_enclosing {id : ScopeId} (h : (t.scope id).enclosing = [global]) (name : String) :
    t.find? id name = ((t.scope id).get? name).or ((t.scope global).get? name) := by
  rw [find?, SymbolTable.chain, h, List.findSome?_cons, List.findSome?_cons, List.findSome?_nil]
  cases (t.scope id).get? name with
  | some e => rfl
  | none => cases (t.scope global).get? name <;> rfl

theorem Declares.find?_eq (h : t.Declares d P) (name : String) :
    t.find? P.localScope name =
      ((t.scope P.localScope).get? name).or ((t.scope global).get? name) :=
  find?_of_enclosing h.enclosing name

/-- A name that the procedure declares stands for its own variable. -/
theorem Declares.find?_local (h : t.Declares d P) {name : String} {v : Variable}
    (hv : t.local? P.localScope name = some v) : t.find? P.localScope name = some (.var v) := by
  rw [h.find?_eq, local?_eq_some_iff.1 hv]
  rfl

/-- A name that stands for a variable stands for one of the procedure itself. -/
theorem Holds.find?_var (hH : t.Holds ds) (h : t.Declares d P) {name : String} {v : Variable}
    (hf : t.find? P.localScope name = some (.var v)) :
    t.local? P.localScope name = some v ∧ v.type.Fits := by
  rw [h.find?_eq] at hf
  cases hl : (t.scope P.localScope).get? name with
  | some e =>
    rw [hl] at hf
    cases hf
    obtain ⟨-, v', hv', hfit⟩ := h.only name _ hl
    cases hv'
    exact ⟨local?_eq_some_iff.2 hl, hfit⟩
  | none =>
    rw [hl] at hf
    rcases hH.only name _ hf with ⟨ty, he, -⟩ | ⟨⟨P', he⟩, -⟩ <;> cases he

/-- A name that stands for a procedure stands for a global one. -/
theorem Declares.find?_proc (h : t.Declares d P) {name : String} {Q : Procedure}
    (hf : t.find? P.localScope name = some (.proc Q)) : t.procedure? name = some Q := by
  rw [h.find?_eq] at hf
  cases hl : (t.scope P.localScope).get? name with
  | some e =>
    rw [hl] at hf
    cases hf
    obtain ⟨-, v', hv', -⟩ := h.only name _ hl
    cases hv'
  | none =>
    rw [hl] at hf
    exact procedure?_eq_some_iff.2 hf

/-- A procedure of the table is a builtin or one that the program declares. -/
theorem Holds.procedure_cases (hH : t.Holds ds) {name : String} {Q : Procedure}
    (hQ : t.procedure? name = some Q) :
    (∃ b ∈ Spl.builtins, b.name = name ∧ Q.parameters = b.signature) ∨
      ∃ d ∈ ds, d.name = name ∧ t.Declares d Q := by
  rcases hH.only name _ (procedure?_eq_some_iff.1 hQ) with ⟨ty, hty, -⟩ | ⟨-, h⟩
  · cases hty
  · rcases h with ⟨b, hb, rfl⟩ | ⟨d, hd, rfl⟩
    · obtain ⟨Q', hQ', hps⟩ := hH.builtins b hb
      rw [hQ, Option.some.injEq] at hQ'
      exact .inl ⟨b, hb, rfl, hQ' ▸ hps⟩
    · obtain ⟨Q', hQ'⟩ := hH.declares d hd
      have hQQ := hQ'.procedure
      rw [hQ, Option.some.injEq] at hQQ
      exact .inr ⟨d, hd, rfl, hQQ ▸ hQ'⟩

/-- What a procedure takes by value is a single word. -/
theorem Holds.isAggregate_of_value (hH : t.Holds ds) {name : String} {Q : Procedure}
    (hQ : t.procedure? name = some Q) {v : Variable} (hv : v ∈ Q.parameters)
    (hr : v.isReference = false) : v.type.isAggregate = false := by
  rcases hH.procedure_cases hQ with ⟨b, -, -, hps⟩ | ⟨d, -, -, hd⟩
  · rw [hps] at hv
    obtain ⟨i, hi, rfl⟩ := List.mem_mapIdx.1 hv
    rfl
  · obtain ⟨i, hi, rfl⟩ := List.mem_iff_getElem.1 hv
    exact (hd.parameters.get (hd.parameters.length_eq ▸ hi) hi).1.word hr

/-- A type that a name stands for fits. -/
theorem Holds.find?_type_global (hH : t.Holds ds) {name : String} {ty : Ty}
    (hf : t.find? global name = some (.type ty)) : ty.Fits := by
  rw [find?_global hH.enclosing] at hf
  rcases hH.only name _ hf with ⟨ty', he, hfit⟩ | ⟨⟨P', he⟩, -⟩
  · cases he; exact hfit
  · cases he

end SymbolTable

end Spl
