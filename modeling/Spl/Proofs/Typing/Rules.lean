import Mathlib.Data.List.Forall2
import Spl.Proofs.Tree.Fresh
import Spl.SemanticError
import Spl.SymbolTable.Basic

/-!
# The rules that bodies obey

Which bodies are well typed, said apart from the check and from the slots of the tree, and which
error is due to a body that is not: the one for the first rule that it breaks, in the order in which
its parts are read. The index of an element is read before its array, and all arguments of a call
before they are counted and compared.

* `Expr.Derives`, `Designator.Derives`, `Stmt.Derivable`, `ProcDecl.Derivable`: the rules.
* `Expr.Breaks`, `Designator.Breaks`, `Stmt.Breaks`, `ProcDecl.SomeBreaks`: the first broken rule.
* `Expr.Derives.unique`: an expression has at most one type.
* `Stmt.Breaks.not_derivable`: no statement both obeys all rules and breaks one.
-/

namespace Spl

/-- What the names in a body stand for. -/
abbrev Meaning := String → Option Entry

/-! ## The rules -/

mutual

/-- By the rules, an expression has a type. -/
inductive Expr.Derives (N : Meaning) : Expr → Ty → Prop
  | literal {p : Position} {value : Word} {slot : TypeSlot} :
      Expr.Derives N (.literal p value slot) .int
  | designator {p : Position} {d : Designator} {slot : TypeSlot} {ty : Ty} :
      d.Derives N ty → Expr.Derives N (.designator p d slot) ty
  | unary {p : Position} {op : UnaryOp} {e : Expr} {slot : TypeSlot} {ty : Ty} :
      e.Derives N ty → ty ≠ .bool → Expr.Derives N (.unary p op e slot) ty
  | arith {p : Position} {op : ArithOp} {l r : Expr} {slot : TypeSlot} {ty : Ty} :
      l.Derives N ty → r.Derives N ty → Expr.Derives N (.binary p (.arith op) l r slot) .int
  | compare {p : Position} {op : Comparison} {l r : Expr} {slot : TypeSlot} {ty : Ty} :
      l.Derives N ty → r.Derives N ty → Expr.Derives N (.binary p (.compare op) l r slot) .bool

/-- By the rules, a designator denotes a location of a type. -/
inductive Designator.Derives (N : Meaning) : Designator → Ty → Prop
  | named {p : Position} {name : String} {slot : TypeSlot} {v : Variable} :
      N name = some (.var v) → Designator.Derives N (.named p name slot) v.type
  | element {p : Position} {array : Designator} {index : Expr} {slot : TypeSlot} {length : UInt32}
      {base : Ty} :
      index.Derives N .int → array.Derives N (.array length base) →
      Designator.Derives N (.element p array index slot) base
  | field {p : Position} {record : Designator} {name : String} {slot : TypeSlot}
      {fields : List (String × Ty)} {ty : Ty} :
      record.Derives N (.record fields) → Ty.fieldType? fields name = some ty →
      Designator.Derives N (.field p record name slot) ty

end

/-- An argument for a parameter has its type, and is a designator if the parameter is a
reference. -/
def Variable.Takes (N : Meaning) (e : Expr) (v : Variable) : Prop :=
  e.Derives N v.type ∧ (v.isReference = true → e.designator?.isSome = true)

/-- A call names a procedure, and has as many arguments as it has parameters, each of which takes
its argument. -/
def Call.Derivable (N : Meaning) (c : Call) : Prop :=
  ∃ P, N c.procedure = some (.proc P) ∧ List.Forall₂ (Variable.Takes N) c.arguments P.parameters

/-- A statement obeys the rules in all of its parts. Names mean the same in all of them. -/
inductive Stmt.Derivable (N : Meaning) : Stmt → Prop
  | assign {p : Position} {d : Designator} {e : Expr} {ty : Ty} :
      d.Derives N ty → e.Derives N ty → ty.isAggregate = false → Derivable N (.assign p d e)
  | ifElse {p : Position} {e : Expr} {s₁ s₂ : Stmt} :
      e.Derives N .bool → Derivable N s₁ → Derivable N s₂ → Derivable N (.ifElse p e s₁ s₂)
  | whileDo {p : Position} {e : Expr} {s : Stmt} :
      e.Derives N .bool → Derivable N s → Derivable N (.whileDo p e s)
  | call {c : Call} : c.Derivable N → Derivable N (.call c)
  | compound {p : Position} {ss : List Stmt} :
      (∀ s ∈ ss, Derivable N s) → Derivable N (.compound p ss)
  | empty {p : Position} : Derivable N (.empty p)

/-- The statements of a procedure obey the rules, where names mean what they mean at its local
scope. -/
def ProcDecl.Derivable (t : SymbolTable) (d : ProcDecl) : Prop :=
  ∃ P, t.procedure? d.name = some P ∧ ∀ s ∈ d.body, s.Derivable (t.find? P.localScope)

/-! ## The first broken rule -/

mutual

/-- An error is due to an expression. -/
inductive Expr.Breaks (N : Meaning) : Expr → Located SemanticError → Prop
  | designator {p : Position} {d : Designator} {slot : TypeSlot} {x : Located SemanticError} :
      d.Breaks N x → Expr.Breaks N (.designator p d slot) x
  | operand {p : Position} {op : UnaryOp} {e : Expr} {slot : TypeSlot}
      {x : Located SemanticError} : e.Breaks N x → Expr.Breaks N (.unary p op e slot) x
  | unary {p : Position} {op : UnaryOp} {e : Expr} {slot : TypeSlot} :
      e.Derives N .bool → Expr.Breaks N (.unary p op e slot) ⟨p, .unaryOperand op .bool⟩
  | left {p : Position} {op : BinaryOp} {l r : Expr} {slot : TypeSlot}
      {x : Located SemanticError} : l.Breaks N x → Expr.Breaks N (.binary p op l r slot) x
  | right {p : Position} {op : BinaryOp} {l r : Expr} {slot : TypeSlot} {ty : Ty}
      {x : Located SemanticError} :
      l.Derives N ty → r.Breaks N x → Expr.Breaks N (.binary p op l r slot) x
  | binary {p : Position} {op : BinaryOp} {l r : Expr} {slot : TypeSlot} {ty ty' : Ty} :
      l.Derives N ty → r.Derives N ty' → ty ≠ ty' →
      Expr.Breaks N (.binary p op l r slot) ⟨p, .binaryOperands op ty ty'⟩

/-- An error is due to a designator. -/
inductive Designator.Breaks (N : Meaning) : Designator → Located SemanticError → Prop
  | undefined {p : Position} {name : String} {slot : TypeSlot} :
      N name = none → Designator.Breaks N (.named p name slot) ⟨p, .undefinedVariable name⟩
  | notAVariable {p : Position} {name : String} {slot : TypeSlot} {entry : Entry} :
      N name = some entry → entry.var? = none →
      Designator.Breaks N (.named p name slot) ⟨p, .notAVariable name⟩
  | index {p : Position} {array : Designator} {index : Expr} {slot : TypeSlot}
      {x : Located SemanticError} :
      index.Breaks N x → Designator.Breaks N (.element p array index slot) x
  | indexType {p : Position} {array : Designator} {index : Expr} {slot : TypeSlot} {ty : Ty} :
      index.Derives N ty → ty ≠ .int →
      Designator.Breaks N (.element p array index slot) ⟨p, .indexType ty⟩
  | array {p : Position} {array : Designator} {index : Expr} {slot : TypeSlot}
      {x : Located SemanticError} :
      index.Derives N .int → array.Breaks N x →
      Designator.Breaks N (.element p array index slot) x
  | indexedType {p : Position} {array : Designator} {index : Expr} {slot : TypeSlot} {ty : Ty} :
      index.Derives N .int → array.Derives N ty → (∀ length base, ty ≠ .array length base) →
      Designator.Breaks N (.element p array index slot) ⟨p, .indexedType ty⟩
  | record {p : Position} {record : Designator} {name : String} {slot : TypeSlot}
      {x : Located SemanticError} :
      record.Breaks N x → Designator.Breaks N (.field p record name slot) x
  | notARecord {p : Position} {record : Designator} {name : String} {slot : TypeSlot} {ty : Ty} :
      record.Derives N ty → (∀ fields, ty ≠ .record fields) →
      Designator.Breaks N (.field p record name slot) ⟨p, .notARecord name⟩
  | noSuchField {p : Position} {record : Designator} {name : String} {slot : TypeSlot}
      {fields : List (String × Ty)} :
      record.Derives N (.record fields) → Ty.fieldType? fields name = none →
      Designator.Breaks N (.field p record name slot) ⟨p, .noSuchField name⟩

end

/-- An error is due to one of the arguments of a call, taken by itself. -/
inductive Expr.SomeBreaks (N : Meaning) : List Expr → Located SemanticError → Prop
  | here {e : Expr} {es : List Expr} {x : Located SemanticError} :
      e.Breaks N x → SomeBreaks N (e :: es) x
  | later {e : Expr} {es : List Expr} {ty : Ty} {x : Located SemanticError} :
      e.Derives N ty → SomeBreaks N es x → SomeBreaks N (e :: es) x

/-- An error is due to the first argument that its parameter does not take. The arguments are
numbered from the given number on. -/
inductive Call.Mismatch (N : Meaning) (procedure : String) :
    Nat → List Expr → List Variable → Located SemanticError → Prop
  | type {n : Nat} {e : Expr} {es : List Expr} {v : Variable} {vs : List Variable} {ty : Ty} :
      e.Derives N ty → ty ≠ v.type →
      Mismatch N procedure n (e :: es) (v :: vs)
        ⟨e.position, .argumentType procedure n v.type ty⟩
  | reference {n : Nat} {e : Expr} {es : List Expr} {v : Variable} {vs : List Variable} :
      e.Derives N v.type → v.isReference = true → e.designator? = none →
      Mismatch N procedure n (e :: es) (v :: vs) ⟨e.position, .argumentNotVariable procedure n⟩
  | later {n : Nat} {e : Expr} {es : List Expr} {v : Variable} {vs : List Variable}
      {x : Located SemanticError} :
      v.Takes N e → Mismatch N procedure (n + 1) es vs x →
      Mismatch N procedure n (e :: es) (v :: vs) x

/-- An error is due to a call. -/
inductive Call.Breaks (N : Meaning) (c : Call) : Located SemanticError → Prop
  | undefined : N c.procedure = none → Breaks N c ⟨c.position, .undefinedProcedure c.procedure⟩
  | notAProcedure {entry : Entry} : N c.procedure = some entry → entry.proc? = none →
      Breaks N c ⟨c.position, .notAProcedure c.procedure⟩
  | argument {P : Procedure} {x : Located SemanticError} : N c.procedure = some (.proc P) →
      Expr.SomeBreaks N c.arguments x → Breaks N c x
  | tooMany {P : Procedure} : N c.procedure = some (.proc P) →
      (∀ e ∈ c.arguments, ∃ ty, e.Derives N ty) → P.parameters.length < c.arguments.length →
      Breaks N c ⟨c.position, .tooManyArguments c.procedure⟩
  | tooFew {P : Procedure} : N c.procedure = some (.proc P) →
      (∀ e ∈ c.arguments, ∃ ty, e.Derives N ty) → c.arguments.length < P.parameters.length →
      Breaks N c ⟨c.position, .tooFewArguments c.procedure⟩
  | mismatch {P : Procedure} {x : Located SemanticError} : N c.procedure = some (.proc P) →
      (∀ e ∈ c.arguments, ∃ ty, e.Derives N ty) → c.arguments.length = P.parameters.length →
      Mismatch N c.procedure 1 c.arguments P.parameters x → Breaks N c x

/-- The error of an assignment whose parts have types that it does not allow. -/
inductive Stmt.AssignError (p : Position) : Ty → Ty → Located SemanticError → Prop
  | record {fields : List (String × Ty)} {ty : Ty} :
      AssignError p (.record fields) ty ⟨p, .assignment (.record fields) ty⟩
  | array {length : UInt32} {base ty : Ty} :
      AssignError p (.array length base) ty ⟨p, .assignmentToArray⟩
  | types {ty ty' : Ty} : ty.isAggregate = false → ty ≠ ty' →
      AssignError p ty ty' ⟨p, .assignment ty ty'⟩

mutual

/-- An error is due to a statement. -/
inductive Stmt.Breaks (N : Meaning) : Stmt → Located SemanticError → Prop
  | target {p : Position} {d : Designator} {e : Expr} {x : Located SemanticError} :
      d.Breaks N x → Stmt.Breaks N (.assign p d e) x
  | value {p : Position} {d : Designator} {e : Expr} {ty : Ty} {x : Located SemanticError} :
      d.Derives N ty → e.Breaks N x → Stmt.Breaks N (.assign p d e) x
  | assign {p : Position} {d : Designator} {e : Expr} {ty ty' : Ty} {x : Located SemanticError} :
      d.Derives N ty → e.Derives N ty' → Stmt.AssignError p ty ty' x →
      Stmt.Breaks N (.assign p d e) x
  | ifCondition {p : Position} {e : Expr} {s₁ s₂ : Stmt} {x : Located SemanticError} :
      e.Breaks N x → Stmt.Breaks N (.ifElse p e s₁ s₂) x
  | ifType {p : Position} {e : Expr} {s₁ s₂ : Stmt} {ty : Ty} :
      e.Derives N ty → ty ≠ .bool → Stmt.Breaks N (.ifElse p e s₁ s₂) ⟨p, .ifCondition ty⟩
  | thenPart {p : Position} {e : Expr} {s₁ s₂ : Stmt} {x : Located SemanticError} :
      e.Derives N .bool → s₁.Breaks N x → Stmt.Breaks N (.ifElse p e s₁ s₂) x
  | elsePart {p : Position} {e : Expr} {s₁ s₂ : Stmt} {x : Located SemanticError} :
      e.Derives N .bool → s₁.Derivable N → s₂.Breaks N x → Stmt.Breaks N (.ifElse p e s₁ s₂) x
  | whileCondition {p : Position} {e : Expr} {s : Stmt} {x : Located SemanticError} :
      e.Breaks N x → Stmt.Breaks N (.whileDo p e s) x
  | whileType {p : Position} {e : Expr} {s : Stmt} {ty : Ty} :
      e.Derives N ty → ty ≠ .bool → Stmt.Breaks N (.whileDo p e s) ⟨p, .whileCondition ty⟩
  | body {p : Position} {e : Expr} {s : Stmt} {x : Located SemanticError} :
      e.Derives N .bool → s.Breaks N x → Stmt.Breaks N (.whileDo p e s) x
  | call {c : Call} {x : Located SemanticError} : c.Breaks N x → Stmt.Breaks N (.call c) x
  | compound {p : Position} {ss : List Stmt} {x : Located SemanticError} :
      Stmt.SomeBreaks N ss x → Stmt.Breaks N (.compound p ss) x

/-- An error is due to one of the statements of a list, the first that breaks a rule. -/
inductive Stmt.SomeBreaks (N : Meaning) : List Stmt → Located SemanticError → Prop
  | here {s : Stmt} {ss : List Stmt} {x : Located SemanticError} :
      s.Breaks N x → Stmt.SomeBreaks N (s :: ss) x
  | later {s : Stmt} {ss : List Stmt} {x : Located SemanticError} :
      s.Derivable N → Stmt.SomeBreaks N ss x → Stmt.SomeBreaks N (s :: ss) x

end

/-- An error is due to one of the procedures of a list, the first whose body breaks a rule. -/
inductive ProcDecl.SomeBreaks (t : SymbolTable) :
    List ProcDecl → Located SemanticError → Prop
  | here {d : ProcDecl} {P : Procedure} {ds : List ProcDecl} {x : Located SemanticError} :
      t.procedure? d.name = some P → Stmt.SomeBreaks (t.find? P.localScope) d.body x →
      SomeBreaks t (d :: ds) x
  | later {d : ProcDecl} {ds : List ProcDecl} {x : Located SemanticError} :
      d.Derivable t → SomeBreaks t ds x → SomeBreaks t (d :: ds) x

variable {N : Meaning}

/-! ## No expression has two types -/

mutual

theorem Expr.Derives.unique : ∀ {e : Expr} {ty ty' : Ty},
    e.Derives N ty → e.Derives N ty' → ty = ty'
  | _, _, _, .literal, .literal => rfl
  | _, _, _, .designator h, .designator h' => h.unique h'
  | _, _, _, .unary h _, .unary h' _ => h.unique h'
  | _, _, _, .arith _ _, .arith _ _ => rfl
  | _, _, _, .compare _ _, .compare _ _ => rfl

theorem Designator.Derives.unique : ∀ {d : Designator} {ty ty' : Ty},
    d.Derives N ty → d.Derives N ty' → ty = ty'
  | _, _, _, .named h, .named h' => by
    rw [h] at h'
    cases h'
    rfl
  | _, _, _, .element _ h, .element _ h' => by
    cases h.unique h'
    rfl
  | _, _, _, .field h hf, .field h' hf' => by
    cases h.unique h'
    rw [hf] at hf'
    cases hf'
    rfl

end

/-! ## Rules are either obeyed or broken -/

mutual

theorem Expr.Breaks.not_derives : ∀ {e : Expr} {x : Located SemanticError} {ty : Ty},
    e.Breaks N x → ¬e.Derives N ty
  | _, _, _, .designator h, .designator h' => h.not_derives h'
  | _, _, _, .operand h, .unary h' _ => h.not_derives h'
  | _, _, _, .unary h, .unary h' hne => hne (h'.unique h)
  | _, _, _, .left h, .arith h' _ => h.not_derives h'
  | _, _, _, .left h, .compare h' _ => h.not_derives h'
  | _, _, _, .right _ h, .arith _ h' => h.not_derives h'
  | _, _, _, .right _ h, .compare _ h' => h.not_derives h'
  | _, _, _, .binary hl hr hne, .arith hl' hr' =>
    hne ((hl.unique hl').trans (hr'.unique hr))
  | _, _, _, .binary hl hr hne, .compare hl' hr' =>
    hne ((hl.unique hl').trans (hr'.unique hr))

theorem Designator.Breaks.not_derives : ∀ {d : Designator} {x : Located SemanticError} {ty : Ty},
    d.Breaks N x → ¬d.Derives N ty
  | _, _, _, .undefined h, .named h' => by
    rw [h] at h'
    cases h'
  | _, _, _, .notAVariable h hv, .named h' => by
    rw [h] at h'
    cases h'
    cases hv
  | _, _, _, .index h, .element h' _ => h.not_derives h'
  | _, _, _, .indexType h hne, .element h' _ => hne (h.unique h')
  | _, _, _, .array _ h, .element _ h' => h.not_derives h'
  | _, _, _, .indexedType _ h hne, .element _ h' => hne _ _ (h.unique h')
  | _, _, _, .record h, .field h' _ => h.not_derives h'
  | _, _, _, .notARecord h hne, .field h' _ => hne _ (h.unique h')
  | _, _, _, .noSuchField h hf, .field h' hf' => by
    cases h.unique h'
    rw [hf] at hf'
    cases hf'

end

theorem Expr.SomeBreaks.not_takes {es : List Expr} {vs : List Variable}
    {x : Located SemanticError} (h : Expr.SomeBreaks N es x) :
    ¬List.Forall₂ (Variable.Takes N) es vs := by
  induction h generalizing vs with
  | here h =>
    intro h'
    cases h' with
    | cons ht _ => exact h.not_derives ht.1
  | later _ _ ih =>
    intro h'
    cases h' with
    | cons _ hs => exact ih hs

theorem Call.Mismatch.not_takes {procedure : String} {n : Nat} {es : List Expr}
    {vs : List Variable} {x : Located SemanticError} (h : Call.Mismatch N procedure n es vs x) :
    ¬List.Forall₂ (Variable.Takes N) es vs := by
  induction h with
  | type h hne =>
    intro h'
    cases h' with
    | cons ht _ => exact hne (h.unique ht.1)
  | reference _ hr hd =>
    intro h'
    cases h' with
    | cons ht _ => simpa [hd] using ht.2 hr
  | later _ _ ih =>
    intro h'
    cases h' with
    | cons _ hs => exact ih hs

theorem Call.Breaks.not_derivable {c : Call} {x : Located SemanticError} (h : c.Breaks N x) :
    ¬c.Derivable N := by
  rintro ⟨P, hP, hargs⟩
  have hlen := hargs.length_eq
  cases h with
  | undefined h => simp [hP] at h
  | notAProcedure h hp =>
    rw [hP] at h
    cases h
    cases hp
  | argument _ h => exact h.not_takes hargs
  | tooMany h _ hlt =>
    rw [hP] at h
    cases h
    omega
  | tooFew h _ hlt =>
    rw [hP] at h
    cases h
    omega
  | mismatch h _ _ hm =>
    rw [hP] at h
    cases h
    exact hm.not_takes hargs

theorem Stmt.AssignError.not_assignable {p : Position} {ty ty' : Ty} {x : Located SemanticError}
    (h : Stmt.AssignError p ty ty' x) : ¬(ty = ty' ∧ ty.isAggregate = false) := by
  rintro ⟨rfl, ha⟩
  cases h with
  | record => cases ha
  | array => cases ha
  | types _ hne => exact hne rfl

mutual

theorem Stmt.Breaks.not_derivable : ∀ {s : Stmt} {x : Located SemanticError},
    s.Breaks N x → ¬s.Derivable N
  | _, _, .target h, .assign h' _ _ => h.not_derives h'
  | _, _, .value _ h, .assign _ h' _ => h.not_derives h'
  | _, _, .assign hd he h, .assign hd' he' ha =>
    h.not_assignable ⟨(hd.unique hd').trans (he'.unique he), hd'.unique hd ▸ ha⟩
  | _, _, .ifCondition h, .ifElse h' _ _ => h.not_derives h'
  | _, _, .ifType h hne, .ifElse h' _ _ => hne (h.unique h')
  | _, _, .thenPart _ h, .ifElse _ h' _ => h.not_derivable h'
  | _, _, .elsePart _ _ h, .ifElse _ _ h' => h.not_derivable h'
  | _, _, .whileCondition h, .whileDo h' _ => h.not_derives h'
  | _, _, .whileType h hne, .whileDo h' _ => hne (h.unique h')
  | _, _, .body _ h, .whileDo _ h' => h.not_derivable h'
  | _, _, .call h, .call h' => h.not_derivable h'
  | _, _, .compound h, .compound h' => h.not_derivable h'

theorem Stmt.SomeBreaks.not_derivable : ∀ {ss : List Stmt} {x : Located SemanticError},
    Stmt.SomeBreaks N ss x → ¬∀ s ∈ ss, s.Derivable N
  | _, _, .here h, h' => h.not_derivable (h' _ (.head _))
  | _, _, .later _ h, h' => h.not_derivable fun s hs => h' s (.tail _ hs)

end

theorem ProcDecl.SomeBreaks.not_derivable {t : SymbolTable} {ds : List ProcDecl}
    {x : Located SemanticError} (h : SomeBreaks t ds x) : ¬∀ d ∈ ds, d.Derivable t := by
  intro hds
  induction h with
  | here hP h =>
    obtain ⟨P', hP', hss⟩ := hds _ (.head _)
    rw [hP] at hP'
    cases hP'
    exact h.not_derivable hss
  | later _ _ ih => exact ih fun d hd => hds d (.tail _ hd)

end Spl
