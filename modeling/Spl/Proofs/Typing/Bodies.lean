import Spl.Proofs.Outcome
import Spl.Proofs.SymbolTable.Growth
import Spl.Proofs.Tree.Fresh
import Spl.Proofs.Typing.Judgement
import Spl.Typing.Bodies

/-!
# Soundness of the check of bodies

A body that passes the check is well typed, and the check of a fresh body ends in no fault. The
table only grows by the empty scopes of compound statements.

* `Expr.check_meets`, `Designator.check_meets`: a type that is answered is the type of the node.
* `Stmt.check_meets`, `Stmt.checkList_meets`: statements that pass are well typed.
* `checkBodies_meets`: the check of a program.

Each is stated for a fresh tree, where no fault is admitted, and for any tree, where faults are: the
only fault is a slot that holds another type.
-/

namespace Spl

variable {A : Prop} {t : SymbolTable} {scope : ScopeId}

/-! ## The rules -/

/-- A node gets the type that its rule answers. -/
theorem conclude_meets {τ : Type} {slot : TypeSlot} {node : TypeSlot → τ} {rule : Verdict Ty}
    {Q : τ → Ty → Prop} (hs : slot.isEmpty = true ∨ A)
    (hr : Meets A (fun ty => Q (node ⟨some ty⟩) ty) rule) :
    (conclude slot node rule).Meets A Q := by
  cases rule with
  | error e => exact hr.of_error
  | ok ty =>
    simp only [conclude]
    cases hf : slot.fill ty with
    | ok slot' =>
      obtain ⟨h, -⟩ := TypeSlot.fill_eq_ok_iff.1 hf
      obtain rfl : slot' = ⟨some ty⟩ := by cases slot'; cases h; rfl
      exact hr
    | error f =>
      refine hs.elim (fun he => ?_) id
      rw [TypeSlot.fill, TypeSlot.type?_of_isEmpty he] at hf
      cases hf

theorem typeOfVariable_meets (p : Position) (name : String) :
    Meets A (fun ty => ∃ ref, (t.typeEnv scope).var? name = some (ty, ref))
      (typeOfVariable t scope p name) := by
  unfold typeOfVariable
  simp only [SymbolTable.typeEnv]
  cases t.find? scope name with
  | none => trivial
  | some e =>
    cases e with
    | var v => exact ⟨v.isReference, rfl⟩
    | type _ => trivial
    | proc _ => trivial

theorem checkIndex_meets (p : Position) (index : Ty) :
    Meets A (fun _ => index = .int) (checkIndex p index) := by
  unfold checkIndex
  split
  · assumption
  · trivial

theorem typeOfElement_meets (p : Position) (array : Ty) :
    Meets A (fun ty => ∃ length, array = .array length ty) (typeOfElement p array) := by
  cases array with
  | array length base => exact ⟨length, rfl⟩
  | int => trivial
  | bool => trivial
  | record fields => trivial

theorem typeOfField_meets (p : Position) (name : String) (record : Ty) :
    Meets A (fun ty => ∃ fields, record = .record fields ∧ Ty.fieldType? fields name = some ty)
      (typeOfField p name record) := by
  cases record with
  | record fields =>
    simp only [typeOfField]
    cases hf : Ty.fieldType? fields name with
    | none => trivial
    | some ty => exact ⟨fields, rfl, hf⟩
  | int => trivial
  | bool => trivial
  | array length base => trivial

theorem typeOfUnary_meets (p : Position) (op : UnaryOp) (operand : Ty) :
    Meets A (fun ty => ty = operand ∧ operand ≠ .bool) (typeOfUnary p op operand) := by
  unfold typeOfUnary
  split
  · trivial
  · next h => exact ⟨rfl, h⟩

theorem typeOfBinary_meets (p : Position) (op : BinaryOp) (left right : Ty) :
    Meets A (fun ty => left = right ∧ ty = if op.isArithmetic then .int else .bool)
      (typeOfBinary p op left right) := by
  unfold typeOfBinary
  by_cases h : left = right
  · rw [if_pos h]
    cases op with
    | arith op => exact ⟨h, rfl⟩
    | compare op => exact ⟨h, rfl⟩
  · rw [if_neg h]
    trivial

theorem checkAssignment_meets (p : Position) (target value : Ty) :
    Meets A (fun _ => target = value ∧ target.isAggregate = false)
      (checkAssignment p target value) := by
  cases target with
  | array length base => trivial
  | record fields => trivial
  | int =>
    simp only [checkAssignment]
    split
    · next h => exact ⟨h, rfl⟩
    · trivial
  | bool =>
    simp only [checkAssignment]
    split
    · next h => exact ⟨h, rfl⟩
    · trivial

theorem checkCondition_meets (p : Position) (cause : Ty → SemanticError) (condition : Ty) :
    Meets A (fun _ => condition = .bool) (checkCondition p cause condition) := by
  unfold checkCondition
  split
  · assumption
  · trivial

theorem parametersOf_meets (c : Call) :
    Meets A (fun vs => (t.typeEnv scope).signature? c.procedure = some (vs.map Variable.view))
      (parametersOf t scope c) := by
  unfold parametersOf
  simp only [SymbolTable.typeEnv]
  cases t.find? scope c.procedure with
  | none => trivial
  | some e =>
    cases e with
    | proc p => rfl
    | type _ => trivial
    | var _ => trivial

theorem checkCount_meets (c : Call) (vs : List Variable) :
    Meets A (fun _ => c.arguments.length = vs.length) (checkCount c vs) := by
  unfold checkCount
  split
  · trivial
  · split
    · trivial
    · change c.arguments.length = vs.length
      omega

/-- Arguments whose types are known suit the parameters that the check accepts. -/
theorem checkArguments_meets {E : TypeEnv} (procedure : String) :
    ∀ (number : Nat) {es : List Expr} {tys : List Ty} {vs : List Variable},
      List.Forall₂ (Expr.HasType E) es tys → es.length = vs.length →
      Meets A (fun _ => List.Forall₂ (Expr.Suits E) es (vs.map Variable.view))
        (checkArguments procedure number es tys vs)
  | _, [], [], [], _, _ => List.Forall₂.nil
  | number, e :: es, ty :: tys, v :: vs, h, hl => by
    rw [List.forall₂_cons] at h
    unfold checkArguments
    have hc : Meets A (fun _ => e.Suits E v.view) (checkArgument procedure number e ty v) := by
      unfold checkArgument
      split
      · trivial
      · next hty =>
        split
        · trivial
        · next hd =>
          have hv : ty = v.type := Classical.not_not.1 hty
          refine ⟨show e.HasType E v.type from hv ▸ h.1, fun href => ?_⟩
          cases he : e.designator? with
          | some d => rfl
          | none => exact absurd ⟨href, by rw [he]; rfl⟩ hd
    exact hc.bind fun _ hs =>
      (checkArguments_meets procedure (number + 1) h.2 (by simpa using hl)).mono
        fun _ hss => .cons hs hss

/-! ## Expressions and designators -/

mutual

/-- The check answers the type of an expression and leaves it in the slots. -/
theorem Expr.check_meets : ∀ (e : Expr), e.isFresh = true ∨ A →
    (e.check t scope).Meets A fun e' ty => e'.HasType (t.typeEnv scope) ty
  | .literal p value slot, h => by
    unfold Expr.check
    exact conclude_meets (by simpa [Expr.isFresh] using h) .literal
  | .designator p target slot, h => by
    unfold Expr.check
    simp only [Expr.isFresh, Bool.and_eq_true] at h
    refine (target.check_meets (h.imp_left And.right)).andThen fun d ty hd => ?_
    exact conclude_meets (h.imp_left And.left) (.designator hd)
  | .unary p op operand slot, h => by
    unfold Expr.check
    simp only [Expr.isFresh, Bool.and_eq_true] at h
    refine (operand.check_meets (h.imp_left And.right)).andThen fun e ty he => ?_
    refine conclude_meets (h.imp_left And.left) ((typeOfUnary_meets p op ty).mono ?_)
    intro _ h
    obtain ⟨rfl, hb⟩ := h
    exact .unary he hb
  | .binary p op left right slot, h => by
    unfold Expr.check
    simp only [Expr.isFresh, Bool.and_eq_true] at h
    refine (left.check_meets (h.imp_left fun h => h.1.2)).andThen fun l lty hl => ?_
    refine (right.check_meets (h.imp_left fun h => h.2)).andThen fun r rty hr => ?_
    refine conclude_meets (h.imp_left fun h => h.1.1) ((typeOfBinary_meets p op lty rty).mono ?_)
    intro _ h
    obtain ⟨rfl, rfl⟩ := h
    cases op with
    | arith op => exact .arith hl hr
    | compare op => exact .compare hl hr

/-- The check answers the type of a designator and leaves it in the slots. -/
theorem Designator.check_meets : ∀ (d : Designator), d.isFresh = true ∨ A →
    (d.check t scope).Meets A fun d' ty => d'.HasType (t.typeEnv scope) ty
  | .named p name slot, h => by
    unfold Designator.check
    refine conclude_meets h ((typeOfVariable_meets p name).mono ?_)
    intro ty h
    obtain ⟨ref, hv⟩ := h
    exact .named hv
  | .element p array index slot, h => by
    unfold Designator.check
    simp only [Designator.isFresh, Bool.and_eq_true] at h
    refine (index.check_meets (h.imp_left fun h => h.2)).andThen fun i ity hi => ?_
    have hc : Meets A _ (checkIndex p ity) := checkIndex_meets p ity
    cases hci : checkIndex p ity with
    | error e => rw [hci] at hc; exact hc.of_error
    | ok _ =>
      rw [hci] at hc
      obtain rfl : ity = .int := hc
      refine (array.check_meets (h.imp_left fun h => h.1.2)).andThen fun a aty ha => ?_
      refine conclude_meets (h.imp_left fun h => h.1.1) ((typeOfElement_meets p aty).mono ?_)
      intro ty h
      obtain ⟨length, rfl⟩ := h
      exact .element ha hi
  | .field p record name slot, h => by
    unfold Designator.check
    simp only [Designator.isFresh, Bool.and_eq_true] at h
    refine (record.check_meets (h.imp_left And.right)).andThen fun r rty hr => ?_
    refine conclude_meets (h.imp_left And.left) ((typeOfField_meets p name rty).mono ?_)
    intro ty h
    obtain ⟨fields, rfl, hf⟩ := h
    exact .field hr hf

end

/-- A call that passes the check is well typed. -/
theorem Call.check_meets (c : Call) (h : (∀ e ∈ c.arguments, e.isFresh = true) ∨ A) :
    (c.check t scope).Meets A fun c' _ => c'.WellTyped (t.typeEnv scope) := by
  unfold Call.check
  have hp : Meets A _ (parametersOf t scope c) := parametersOf_meets c
  cases hvs : parametersOf t scope c with
  | error e => rw [hvs] at hp; exact hp.of_error
  | ok vs =>
    rw [hvs] at hp
    refine (Visit.Meets.list fun e he => e.check_meets (h.imp_left fun h => h e he)).andThen
      fun es tys ⟨hn, hes⟩ => ?_
    exact (checkCount_meets c vs).bind fun _ hl =>
      (checkArguments_meets c.procedure 1 hes (hn.trans hl)).mono fun _ hs => ⟨_, hp, hs⟩

/-! ## Statements -/

namespace Stmt

/-- A condition that passes its check is a `bool`. -/
theorem condition_meets {τ : Type} {p : Position} {cause : Ty → SemanticError} {ty : Ty}
    {node : τ} {next : SemanticVisit τ Unit} {Q : τ → Unit → Prop}
    (h : ty = .bool → next.Meets A Q) :
    Visit.Meets A Q (match checkCondition p cause ty with
      | .error e => .fail node e
      | .ok () => next) := by
  have hc : Meets A _ (checkCondition p cause ty) := checkCondition_meets p cause ty
  cases hcc : checkCondition p cause ty with
  | error e => rw [hcc] at hc; exact hc.of_error
  | ok _ => rw [hcc] at hc; exact h hc

mutual

/-- A statement that passes the check is well typed, in the table as it was before. -/
theorem check_meets : ∀ (s : Stmt) {t : SymbolTable} {scope : ScopeId},
    t.Closed scope → s.isFresh = true ∨ A →
    (s.check scope t).Meets A fun (t', s') _ => t.Extends t' ∧ s'.WellTyped (t.typeEnv scope)
  | .assign p target value, t, scope, hc, h => by
    unfold check
    simp only [isFresh, Bool.and_eq_true] at h
    refine (target.check_meets (h.imp_left And.left)).andThen fun d dty hd => ?_
    refine (value.check_meets (h.imp_left And.right)).andThen fun e ety he => ?_
    refine (checkAssignment_meets p dty ety).mono ?_
    intro _ h
    obtain ⟨rfl, ha⟩ := h
    exact ⟨.refl t, .assign hd he ha⟩
  | .ifElse p condition thenPart elsePart, t, scope, hc, h => by
    unfold check
    simp only [isFresh, Bool.and_eq_true] at h
    refine (condition.check_meets (h.imp_left fun h => h.1.1)).andThen fun e ty he => ?_
    refine condition_meets ?_
    intro h
    subst h
    refine (thenPart.check_meets hc (h.imp_left fun h => h.1.2)).andThen ?_
    intro v _ h
    obtain ⟨t₁, s₁⟩ := v
    obtain ⟨hx₁, hs₁⟩ := h
    refine .mapTree ((elsePart.check_meets (hx₁.closed hc) (h.imp_left fun h => h.2)).mono ?_)
    intro v _ h
    obtain ⟨t₂, s₂⟩ := v
    obtain ⟨hx₂, hs₂⟩ := h
    rw [hx₁.typeEnv_eq hc] at hs₂
    exact ⟨hx₁.trans hx₂, .ifElse he hs₁ hs₂⟩
  | .whileDo p condition body, t, scope, hc, h => by
    unfold check
    simp only [isFresh, Bool.and_eq_true] at h
    refine (condition.check_meets (h.imp_left And.left)).andThen fun e ty he => ?_
    refine condition_meets ?_
    intro h
    subst h
    refine .mapTree ((body.check_meets hc (h.imp_left And.right)).mono ?_)
    intro v _ h
    obtain ⟨t', s'⟩ := v
    obtain ⟨hx, hs⟩ := h
    exact ⟨hx, .whileDo he hs⟩
  | .call c, t, scope, hc, h => by
    unfold check
    simp only [isFresh, List.all_eq_true] at h
    exact .mapTree ((c.check_meets h).mono fun c' _ hc' => ⟨.refl t, .call hc'⟩)
  | .compound p statements, t, scope, hc, h => by
    unfold check
    simp only [isFresh] at h
    refine .mapTree ((checkList_meets statements (SymbolTable.closed_newScope hc) h).mono ?_)
    intro v _ h
    obtain ⟨t', ss'⟩ := v
    obtain ⟨hx, hss⟩ := h
    rw [SymbolTable.typeEnv_newScope hc] at hss
    exact ⟨(SymbolTable.Extends.newScope t scope).trans hx, .compound hss⟩
  | .empty p, t, scope, _, _ => ⟨.refl t, .empty⟩

/-- Statements that pass the check are well typed, in the table as it was before. -/
theorem checkList_meets : ∀ (ss : List Stmt) {t : SymbolTable} {scope : ScopeId},
    t.Closed scope → allFresh ss = true ∨ A →
    (checkList scope t ss).Meets A fun (t', ss') _ =>
      t.Extends t' ∧ ∀ s' ∈ ss', s'.WellTyped (t.typeEnv scope)
  | [], t, scope, _, _ => ⟨.refl t, by simp⟩
  | s :: ss, t, scope, hc, h => by
    unfold checkList
    simp only [allFresh, Bool.and_eq_true] at h
    refine (s.check_meets hc (h.imp_left And.left)).andThen ?_
    intro v _ h
    obtain ⟨t₁, s₁⟩ := v
    obtain ⟨hx₁, hs₁⟩ := h
    refine .mapTree ((checkList_meets ss (hx₁.closed hc) (h.imp_left And.right)).mono ?_)
    intro v _ h
    obtain ⟨t₂, ss₂⟩ := v
    obtain ⟨hx₂, hss₂⟩ := h
    rw [hx₁.typeEnv_eq hc] at hss₂
    refine ⟨hx₁.trans hx₂, fun s' hs' => ?_⟩
    rcases List.mem_cons.1 hs' with rfl | hs'
    · exact hs₁
    · exact hss₂ s' hs'

end

end Stmt

end Spl
