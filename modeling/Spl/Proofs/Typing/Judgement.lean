import Spl.Proofs.SymbolTable.Declared

/-!
# The typing judgement

Which types the nodes of a procedure body have, said apart from the walk that finds them. The
judgement is about checked trees: a node is well typed if its slot holds its type.

* `TypeEnv`: what a body can name, without the places of variables.
* `Expr.HasType`, `Designator.HasType`, `Stmt.WellTyped`: the judgement.
* `Stmt.Within`: the parts of a statement.
* `Designator.HasType.fits`: where all variables have types that fit, all designators have.
-/

namespace Spl

/-- What the names in a body stand for: the variables and the parameters of the procedures. -/
structure TypeEnv where
  var? : String → Option (Ty × Bool)
  signature? : String → Option (List (Ty × Bool))

namespace TypeEnv

/-- True when every variable has a type that fits. -/
def Fits (E : TypeEnv) : Prop := ∀ name ty ref, E.var? name = some (ty, ref) → ty.Fits

end TypeEnv

/-- What names stand for at a scope of a table. -/
def SymbolTable.typeEnv (t : SymbolTable) (scope : ScopeId) : TypeEnv where
  var? name := ((t.find? scope name).bind Entry.var?).map Variable.view
  signature? name := ((t.find? scope name).bind Entry.proc?).map (·.parameters.map Variable.view)

namespace SymbolTable

variable {t t' : SymbolTable} {id : ScopeId}

theorem Extends.typeEnv_eq (h : t.Extends t') (hc : t.Closed id) :
    t'.typeEnv id = t.typeEnv id := by
  simp only [typeEnv, find?_of_extends h hc]

theorem typeEnv_newScope (hc : t.Closed id) :
    (t.newScope id).2.typeEnv (t.newScope id).1 = t.typeEnv id := by
  simp only [typeEnv, find?_newScope hc]

end SymbolTable

mutual

/-- An expression has a type, which its slot holds. -/
inductive Expr.HasType (E : TypeEnv) : Expr → Ty → Prop
  | literal {p : Position} {value : Word} : Expr.HasType E (.literal p value ⟨some .int⟩) .int
  | designator {p : Position} {d : Designator} {ty : Ty} :
      d.HasType E ty → Expr.HasType E (.designator p d ⟨some ty⟩) ty
  | unary {p : Position} {op : UnaryOp} {e : Expr} {ty : Ty} :
      e.HasType E ty → ty ≠ .bool → Expr.HasType E (.unary p op e ⟨some ty⟩) ty
  | arith {p : Position} {op : ArithOp} {l r : Expr} {ty : Ty} :
      l.HasType E ty → r.HasType E ty → Expr.HasType E (.binary p (.arith op) l r ⟨some .int⟩) .int
  | compare {p : Position} {op : Comparison} {l r : Expr} {ty : Ty} :
      l.HasType E ty → r.HasType E ty →
      Expr.HasType E (.binary p (.compare op) l r ⟨some .bool⟩) .bool

/-- A designator has a type, which its slot holds. -/
inductive Designator.HasType (E : TypeEnv) : Designator → Ty → Prop
  | named {p : Position} {name : String} {ty : Ty} {ref : Bool} :
      E.var? name = some (ty, ref) → Designator.HasType E (.named p name ⟨some ty⟩) ty
  | element {p : Position} {array : Designator} {index : Expr} {length : UInt32} {base : Ty} :
      array.HasType E (.array length base) → index.HasType E .int →
      Designator.HasType E (.element p array index ⟨some base⟩) base
  | field {p : Position} {record : Designator} {name : String} {fields : List (String × Ty)}
      {ty : Ty} :
      record.HasType E (.record fields) → Ty.fieldType? fields name = some ty →
      Designator.HasType E (.field p record name ⟨some ty⟩) ty

end

/-- An argument has the type of its parameter, and for a reference parameter it is a designator. -/
def Expr.Suits (E : TypeEnv) (e : Expr) (parameter : Ty × Bool) : Prop :=
  e.HasType E parameter.1 ∧ (parameter.2 = true → e.designator?.isSome = true)

/-- A call names a procedure and has a suitable argument for each of its parameters. -/
def Call.WellTyped (E : TypeEnv) (c : Call) : Prop :=
  ∃ parameters, E.signature? c.procedure = some parameters ∧
    List.Forall₂ (Expr.Suits E) c.arguments parameters

/-- A statement obeys the typing rules in all of its parts. -/
inductive Stmt.WellTyped (E : TypeEnv) : Stmt → Prop
  | assign {p : Position} {d : Designator} {e : Expr} {ty : Ty} :
      d.HasType E ty → e.HasType E ty → ty.isAggregate = false → WellTyped E (.assign p d e)
  | ifElse {p : Position} {e : Expr} {s₁ s₂ : Stmt} :
      e.HasType E .bool → WellTyped E s₁ → WellTyped E s₂ → WellTyped E (.ifElse p e s₁ s₂)
  | whileDo {p : Position} {e : Expr} {s : Stmt} :
      e.HasType E .bool → WellTyped E s → WellTyped E (.whileDo p e s)
  | call {c : Call} : c.WellTyped E → WellTyped E (.call c)
  | compound {p : Position} {ss : List Stmt} :
      (∀ s ∈ ss, WellTyped E s) → WellTyped E (.compound p ss)
  | empty {p : Position} : WellTyped E (.empty p)

/-- A statement is another one or part of it, at any depth. -/
inductive Stmt.Within (s : Stmt) : Stmt → Prop
  | self : Within s s
  | thenPart {p : Position} {e : Expr} {s₁ s₂ : Stmt} : Within s s₁ → Within s (.ifElse p e s₁ s₂)
  | elsePart {p : Position} {e : Expr} {s₁ s₂ : Stmt} : Within s s₂ → Within s (.ifElse p e s₁ s₂)
  | body {p : Position} {e : Expr} {s₁ : Stmt} : Within s s₁ → Within s (.whileDo p e s₁)
  | compound {p : Position} {ss : List Stmt} {s₁ : Stmt} :
      s₁ ∈ ss → Within s s₁ → Within s (.compound p ss)

variable {E : TypeEnv}

/-- The parts of a well-typed statement are well typed. -/
theorem Stmt.Within.wellTyped {s s' : Stmt} (hs : s.Within s') (h : s'.WellTyped E) :
    s.WellTyped E := by
  induction hs with
  | self => exact h
  | thenPart _ ih => cases h with | ifElse _ h₁ _ => exact ih h₁
  | elsePart _ ih => cases h with | ifElse _ _ h₂ => exact ih h₂
  | body _ ih => cases h with | whileDo _ h₁ => exact ih h₁
  | compound hm _ ih => cases h with | compound hss => exact ih (hss _ hm)

/-! ## Slots -/

theorem Expr.HasType.type_eq {e : Expr} {ty : Ty} (h : e.HasType E ty) : e.type = .ok ty := by
  cases h <;> rfl

theorem Designator.HasType.type_eq {d : Designator} {ty : Ty} (h : d.HasType E ty) :
    d.type = .ok ty := by
  cases h <;> rfl

/-! ## Calls -/

theorem Stmt.mem_callsOf {c : Call} {ss : List Stmt} :
    c ∈ Stmt.callsOf ss ↔ ∃ s ∈ ss, c ∈ s.calls := by
  induction ss with
  | nil => simp [Stmt.callsOf]
  | cons s ss ih => simp [Stmt.callsOf, ih]

/-- The calls in a well-typed statement are well typed. -/
theorem Stmt.WellTyped.calls {s : Stmt} (h : s.WellTyped E) : ∀ c ∈ s.calls, c.WellTyped E := by
  induction h with
  | assign _ _ _ => intro c hc; simp [Stmt.calls] at hc
  | ifElse _ _ _ ih₁ ih₂ =>
    intro c hc
    rw [Stmt.calls, List.mem_append] at hc
    exact hc.elim (ih₁ c) (ih₂ c)
  | whileDo _ _ ih =>
    intro c hc
    rw [Stmt.calls] at hc
    exact ih c hc
  | call h =>
    intro c hc
    rw [Stmt.calls, List.mem_singleton] at hc
    rw [hc]
    exact h
  | compound _ ih =>
    intro c hc
    rw [Stmt.calls, Stmt.mem_callsOf] at hc
    obtain ⟨s, hs, hcs⟩ := hc
    exact ih s hs c hcs
  | empty => intro c hc; simp [Stmt.calls] at hc

/-! ## Types that fit -/

/-- Designators reach only parts of variables, and the parts of a type that fits fit. -/
theorem Designator.HasType.fits (hE : E.Fits) :
    ∀ {d : Designator} {ty : Ty}, d.HasType E ty → ty.Fits
  | _, _, .named h => hE _ _ _ h
  | _, _, .element ha _ => (fits hE ha).base
  | _, _, .field hr hf => (fits hE hr).field hf

end Spl
