import Spl.Proofs.Frame.Allocation
import Spl.Proofs.Typing.Nodes

/-!
# What code loads

Where the value of a designator is asked for, its code loads one word from its address. This module
collects the designators of a body that are loaded: as operands, indices, conditions, assigned
values and arguments by value, at any depth.

* `Expr.loads`, `Designator.loads`, `Stmt.loads`: the designators that are loaded.
* `Node.PrimitiveOperands`: no operator is applied to an array or a record.
* `Stmt.loadsOf_primitive_iff`: exactly then all loads read values of primitive types.
-/

namespace Spl

open SymbolTable

mutual

/-- The designators that are loaded for the value of an expression. -/
def Expr.loads : Expr → List Designator
  | .literal .. => []
  | .unary _ _ operand _ => operand.loads
  | .binary _ _ left right _ => left.loads ++ right.loads
  | .designator _ target _ => target.loads ++ [target]

/-- The designators that are loaded for the address of a designator: those in its indices. -/
def Designator.loads : Designator → List Designator
  | .named .. => []
  | .element _ array index _ => array.loads ++ index.loads
  | .field _ record _ _ => record.loads

end

namespace Expr

/-- The designators that are loaded for an argument. A reference parameter gets an address. -/
def passedLoads (byReference : Bool) (e : Expr) : List Designator :=
  if byReference then
    match e with
    | .designator _ target _ => target.loads
    | .literal .. | .unary .. | .binary .. => []
  else e.loads

/-- The designators that are loaded for the arguments of a call. -/
def passedLoadsOf : List Expr → List Variable → List Designator
  | e :: es, v :: vs => e.passedLoads v.isReference ++ passedLoadsOf es vs
  | [], _ | _ :: _, [] => []

end Expr

/-- The designators that are loaded for a call. -/
def Call.loads (t : SymbolTable) (c : Call) : List Designator :=
  match t.procedure? c.procedure with
  | some callee => Expr.passedLoadsOf c.arguments callee.parameters
  | none => []

namespace Stmt

mutual

/-- The designators that are loaded by a statement. -/
def loads (t : SymbolTable) : Stmt → List Designator
  | .assign _ target value => target.loads ++ value.loads
  | .ifElse _ condition thenPart elsePart =>
    condition.loads ++ thenPart.loads t ++ elsePart.loads t
  | .whileDo _ condition body => condition.loads ++ body.loads t
  | .call c => c.loads t
  | .compound _ statements => loadsOf t statements
  | .empty _ => []

/-- The designators that are loaded by a list of statements. -/
def loadsOf (t : SymbolTable) : List Stmt → List Designator
  | [] => []
  | s :: ss => s.loads t ++ loadsOf t ss

end

end Stmt

/-- Neither operand of a binary operator is an array or a record. -/
def Node.PrimitiveOperands : Node → Prop
  | .expr (.binary _ _ left right _) => ∀ ty, left.type = .ok ty ∨ right.type = .ok ty →
      ty.isAggregate = false
  | .expr (.literal ..) | .expr (.unary ..) | .expr (.designator ..) | .designator _ => True

/-- A designator has a primitive type. -/
def Designator.IsPrimitive (E : TypeEnv) (d : Designator) : Prop :=
  ∃ ty, d.HasType E ty ∧ ty.isAggregate = false

variable {E : TypeEnv} {t : SymbolTable} {d : ProcDecl} {P : Procedure} {ds : List ProcDecl}

/-! ## Loads are nodes -/

section
variable {x : Designator}

mutual

theorem Expr.mem_nodes_of_loads : ∀ {e : Expr}, x ∈ e.loads → .designator x ∈ e.nodes
  | .literal .., h => by simp [Expr.loads] at h
  | .designator _ target _, h => by
    simp only [Expr.loads, List.mem_append, List.mem_singleton] at h
    rcases h with h | rfl
    · exact List.mem_cons_of_mem _ (Designator.mem_nodes_of_loads h)
    · cases x <;> simp [Expr.nodes, Designator.nodes]
  | .unary _ _ operand _, h => by
    rw [Expr.loads] at h
    exact List.mem_cons_of_mem _ (Expr.mem_nodes_of_loads h)
  | .binary _ _ left right _, h => by
    rw [Expr.loads, List.mem_append] at h
    exact List.mem_cons_of_mem _ (List.mem_append.2
      (h.imp Expr.mem_nodes_of_loads Expr.mem_nodes_of_loads))

theorem Designator.mem_nodes_of_loads : ∀ {d : Designator}, x ∈ d.loads →
    .designator x ∈ d.nodes
  | .named .., h => by simp [Designator.loads] at h
  | .element _ array index _, h => by
    rw [Designator.loads, List.mem_append] at h
    exact List.mem_cons_of_mem _ (List.mem_append.2
      (h.imp Designator.mem_nodes_of_loads Expr.mem_nodes_of_loads))
  | .field _ record _ _, h => by
    rw [Designator.loads] at h
    exact List.mem_cons_of_mem _ (Designator.mem_nodes_of_loads h)

end

theorem Expr.mem_nodes_of_passedLoads {byReference : Bool} {e : Expr}
    (h : x ∈ e.passedLoads byReference) : .designator x ∈ e.nodes := by
  unfold passedLoads at h
  cases byReference with
  | false => exact Expr.mem_nodes_of_loads h
  | true =>
    cases e with
    | designator p target slot => exact List.mem_cons_of_mem _ (Designator.mem_nodes_of_loads h)
    | literal | unary | binary => cases h

theorem Expr.mem_nodes_of_passedLoadsOf : ∀ {es : List Expr} {vs : List Variable},
    x ∈ Expr.passedLoadsOf es vs → .designator x ∈ es.flatMap Expr.nodes
  | [], _, h | _ :: _, [], h => by simp [Expr.passedLoadsOf] at h
  | e :: es, v :: vs, h => by
    rw [Expr.passedLoadsOf, List.mem_append] at h
    rw [List.flatMap_cons, List.mem_append]
    exact h.imp Expr.mem_nodes_of_passedLoads Expr.mem_nodes_of_passedLoadsOf

mutual

theorem Stmt.mem_nodes_of_loads : ∀ {s : Stmt}, x ∈ s.loads t → .designator x ∈ s.nodes
  | .assign .., h => by
    rw [Stmt.loads, List.mem_append] at h
    exact List.mem_append.2 (h.imp Designator.mem_nodes_of_loads Expr.mem_nodes_of_loads)
  | .ifElse .., h => by
    rw [Stmt.loads, List.append_assoc, List.mem_append, List.mem_append] at h
    rw [Stmt.nodes, List.mem_append, List.mem_append]
    exact h.imp Expr.mem_nodes_of_loads
      (Or.imp Stmt.mem_nodes_of_loads Stmt.mem_nodes_of_loads)
  | .whileDo .., h => by
    rw [Stmt.loads, List.mem_append] at h
    exact List.mem_append.2 (h.imp Expr.mem_nodes_of_loads Stmt.mem_nodes_of_loads)
  | .call c, h => by
    rw [Stmt.loads, Call.loads] at h
    split at h
    · exact Expr.mem_nodes_of_passedLoadsOf h
    · cases h
  | .compound .., h => by
    rw [Stmt.loads] at h
    exact Stmt.mem_nodesOf_of_loads h
  | .empty _, h => by simp [Stmt.loads] at h

/-- A designator that is loaded is a node of the body. -/
theorem Stmt.mem_nodesOf_of_loads : ∀ {ss : List Stmt}, x ∈ Stmt.loadsOf t ss →
    .designator x ∈ Stmt.nodesOf ss
  | [], h => by simp [Stmt.loadsOf] at h
  | s :: ss, h => by
    rw [Stmt.loadsOf, List.mem_append] at h
    exact List.mem_append.2 (h.imp Stmt.mem_nodes_of_loads Stmt.mem_nodesOf_of_loads)

end

end

/-! ## Primitive operands give primitive loads -/

mutual

/-- An expression of a primitive type loads values of primitive types only. -/
theorem Expr.HasType.loads_primitive : ∀ {e : Expr} {ty : Ty}, e.HasType E ty →
    ty.isAggregate = false → (∀ x ∈ e.nodes, x.PrimitiveOperands) →
    ∀ x ∈ e.loads, x.IsPrimitive E
  | _, _, .literal, _, _ => by simp [Expr.loads]
  | _, _, .designator hd, hty, hops => by
    simp only [Expr.nodes, Expr.loads, List.forall_mem_cons, List.forall_mem_append] at hops ⊢
    exact ⟨hd.loads_primitive hops.2, ⟨_, hd, hty⟩, by simp⟩
  | _, _, .unary he _, hty, hops => by
    simp only [Expr.nodes, Expr.loads, List.forall_mem_cons] at hops ⊢
    exact he.loads_primitive hty hops.2
  | _, _, .arith hl hr, _, hops | _, _, .compare hl hr, _, hops => by
    simp only [Expr.nodes, Expr.loads, List.forall_mem_cons, List.forall_mem_append] at hops ⊢
    have hty := hops.1 _ (.inl hl.type_eq)
    exact ⟨hl.loads_primitive hty hops.2.1, hr.loads_primitive hty hops.2.2⟩

/-- The address of a designator, of whatever type, loads values of primitive types only. -/
theorem Designator.HasType.loads_primitive : ∀ {d : Designator} {ty : Ty}, d.HasType E ty →
    (∀ x ∈ d.nodes, x.PrimitiveOperands) → ∀ x ∈ d.loads, x.IsPrimitive E
  | _, _, .named _, _ => by simp [Designator.loads]
  | _, _, .element ha hi, hops => by
    simp only [Designator.nodes, Designator.loads, List.forall_mem_cons,
      List.forall_mem_append] at hops ⊢
    exact ⟨ha.loads_primitive hops.2.1, hi.loads_primitive rfl hops.2.2⟩
  | _, _, .field hr _, hops => by
    simp only [Designator.nodes, Designator.loads, List.forall_mem_cons] at hops ⊢
    exact hr.loads_primitive hops.2

end

/-- Where single words are passed by value, arguments load values of primitive types only. -/
theorem Expr.passedLoadsOf_primitive : ∀ {es : List Expr} {vs : List Variable},
    List.Forall₂ (Expr.Suits E) es (vs.map Variable.view) →
    (∀ v ∈ vs, v.isReference = false → v.type.isAggregate = false) →
    (∀ x ∈ es.flatMap Expr.nodes, x.PrimitiveOperands) →
    ∀ x ∈ Expr.passedLoadsOf es vs, x.IsPrimitive E
  | [], _, _, _, _ | _ :: _, [], _, _, _ => by simp [Expr.passedLoadsOf]
  | e :: es, v :: vs, h, hv, hops => by
    simp only [List.map_cons, List.forall₂_cons, List.flatMap_cons, List.forall_mem_cons,
      List.forall_mem_append, Expr.passedLoadsOf] at h hv hops ⊢
    refine ⟨?_, Expr.passedLoadsOf_primitive h.2 hv.2 hops.2⟩
    obtain ⟨hty, hdesignator⟩ := h.1
    unfold Expr.passedLoads
    cases hr : v.isReference with
    | false => exact hty.loads_primitive (hv.1 hr) hops.1
    | true =>
      cases e with
      | designator p target slot =>
        have hnodes := hops.1
        rw [Expr.nodes, List.forall_mem_cons] at hnodes
        cases hty with
        | designator hd => exact hd.loads_primitive hnodes.2
      | literal | unary | binary => simp

mutual

/-- A well-typed statement loads values of primitive types only, if all operands are primitive. -/
theorem Stmt.loads_primitive (hH : t.Holds ds) (hP : t.Declares d P) : ∀ {s : Stmt},
    s.WellTyped (t.typeEnv P.localScope) → (∀ x ∈ s.nodes, x.PrimitiveOperands) →
    ∀ x ∈ s.loads t, x.IsPrimitive (t.typeEnv P.localScope)
  | .assign .., h, hops => by
    cases h with
    | assign hd he hty =>
      simp only [Stmt.nodes, Stmt.loads, List.forall_mem_append] at hops ⊢
      exact ⟨hd.loads_primitive hops.1, he.loads_primitive hty hops.2⟩
  | .ifElse .., h, hops => by
    cases h with
    | ifElse he h₁ h₂ =>
      simp only [Stmt.nodes, Stmt.loads, List.forall_mem_append] at hops ⊢
      exact ⟨⟨he.loads_primitive rfl hops.1, Stmt.loads_primitive hH hP h₁ hops.2.1⟩,
        Stmt.loads_primitive hH hP h₂ hops.2.2⟩
  | .whileDo .., h, hops => by
    cases h with
    | whileDo he h₁ =>
      simp only [Stmt.nodes, Stmt.loads, List.forall_mem_append] at hops ⊢
      exact ⟨he.loads_primitive rfl hops.1, Stmt.loads_primitive hH hP h₁ hops.2⟩
  | .call c, h, hops => by
    cases h with
    | call h =>
      obtain ⟨Q, hQ, hargs⟩ := h.callee hP
      rw [Stmt.loads, Call.loads, hQ]
      exact Expr.passedLoadsOf_primitive hargs (fun v hv => hH.isAggregate_of_value hQ hv) hops
  | .compound .., h, hops => by
    cases h with
    | compound h =>
      rw [Stmt.loads]
      exact Stmt.loadsOf_primitive hH hP h hops
  | .empty _, _, _ => by simp [Stmt.loads]

/-- Well-typed statements load values of primitive types only, if all operands are primitive. -/
theorem Stmt.loadsOf_primitive (hH : t.Holds ds) (hP : t.Declares d P) : ∀ {ss : List Stmt},
    (∀ s ∈ ss, s.WellTyped (t.typeEnv P.localScope)) →
    (∀ x ∈ Stmt.nodesOf ss, x.PrimitiveOperands) →
    ∀ x ∈ Stmt.loadsOf t ss, x.IsPrimitive (t.typeEnv P.localScope)
  | [], _, _ => by simp [Stmt.loadsOf]
  | s :: ss, h, hops => by
    simp only [Stmt.nodesOf, Stmt.loadsOf, List.forall_mem_cons, List.forall_mem_append]
      at h hops ⊢
    exact ⟨Stmt.loads_primitive hH hP h.1 hops.1, Stmt.loadsOf_primitive hH hP h.2 hops.2⟩

end

/-! ## Other operands give other loads -/

/-- An expression whose value is an array or a record loads one. -/
theorem Expr.HasType.exists_load : ∀ {e : Expr} {ty : Ty}, e.HasType E ty →
    ty.isAggregate = true → ∃ x ∈ e.loads, x.HasType E ty
  | _, _, .literal, hty | _, _, .arith _ _, hty | _, _, .compare _ _, hty => by cases hty
  | _, _, .designator hd, _ => ⟨_, by simp [Expr.loads], hd⟩
  | _, _, .unary he _, hty => by
    rw [Expr.loads]
    exact he.exists_load hty

mutual

/-- The loads of a part of an expression are loads of the whole. -/
theorem Expr.loads_subset {b : Expr} : ∀ {e : Expr}, .expr b ∈ e.nodes → b.loads ⊆ e.loads
  | .literal .., h => by
    simp only [Expr.nodes, List.mem_singleton, Node.expr.injEq] at h
    simp [h]
  | .designator _ target _, h => by
    simp only [Expr.nodes, List.mem_cons, Node.expr.injEq] at h
    rcases h with rfl | h
    · simp
    · exact List.subset_append_of_subset_left _ (target.loads_subset h)
  | .unary _ _ operand _, h => by
    simp only [Expr.nodes, List.mem_cons, Node.expr.injEq] at h
    rw [Expr.loads]
    rcases h with rfl | h
    · simp [Expr.loads]
    · exact Expr.loads_subset h
  | .binary _ _ left right _, h => by
    simp only [Expr.nodes, List.mem_cons, List.mem_append, Node.expr.injEq] at h
    rcases h with rfl | h | h
    · simp
    · exact List.subset_append_of_subset_left _ (Expr.loads_subset h)
    · exact List.subset_append_of_subset_right _ (Expr.loads_subset h)

/-- The loads of an index are loads of the whole designator. -/
theorem Designator.loads_subset {b : Expr} : ∀ {d : Designator}, .expr b ∈ d.nodes →
    b.loads ⊆ d.loads
  | .named .., h => by simp [Designator.nodes] at h
  | .element _ array index _, h => by
    simp only [Designator.nodes, List.mem_cons, List.mem_append, reduceCtorEq, false_or] at h
    rcases h with h | h
    · exact List.subset_append_of_subset_left _ (array.loads_subset h)
    · exact List.subset_append_of_subset_right _ (Expr.loads_subset h)
  | .field _ record _ _, h => by
    simp only [Designator.nodes, List.mem_cons, reduceCtorEq, false_or] at h
    exact record.loads_subset h

end

section
variable {p : Position} {op : BinaryOp} {l r : Expr} {slot : TypeSlot}

/-- What the operands of an operator load is loaded for an argument, since an argument that is an
operator itself is not passed by reference. -/
theorem Expr.passedLoads_subset {byReference : Bool} {e : Expr}
    (hd : byReference = true → e.designator?.isSome = true)
    (h : .expr (.binary p op l r slot) ∈ e.nodes) :
    (Expr.binary p op l r slot).loads ⊆ e.passedLoads byReference := by
  unfold passedLoads
  cases byReference with
  | false => exact Expr.loads_subset h
  | true =>
    cases e with
    | designator p target slot =>
      simp only [Expr.nodes, List.mem_cons, Node.expr.injEq, reduceCtorEq, false_or] at h
      exact Designator.loads_subset h
    | literal | unary | binary => cases hd rfl

theorem Expr.passedLoadsOf_subset : ∀ {es : List Expr} {vs : List Variable},
    List.Forall₂ (Expr.Suits E) es (vs.map Variable.view) →
    .expr (.binary p op l r slot) ∈ es.flatMap Expr.nodes →
    (Expr.binary p op l r slot).loads ⊆ Expr.passedLoadsOf es vs
  | [], _, _, h => by simp at h
  | _ :: _, [], hargs, _ => by cases hargs
  | e :: es, v :: vs, hargs, h => by
    rw [List.map_cons, List.forall₂_cons] at hargs
    rw [List.flatMap_cons, List.mem_append] at h
    rw [Expr.passedLoadsOf]
    rcases h with h | h
    · exact List.subset_append_of_subset_left _ (Expr.passedLoads_subset hargs.1.2 h)
    · exact List.subset_append_of_subset_right _ (Expr.passedLoadsOf_subset hargs.2 h)

mutual

/-- What the operands of an operator in a well-typed statement load is loaded by the statement. -/
theorem Stmt.loads_subset (hP : t.Declares d P) : ∀ {s : Stmt},
    s.WellTyped (t.typeEnv P.localScope) → .expr (.binary p op l r slot) ∈ s.nodes →
    (Expr.binary p op l r slot).loads ⊆ s.loads t
  | .assign _ target value, _, h => by
    rw [Stmt.nodes, List.mem_append] at h
    rw [Stmt.loads]
    rcases h with h | h
    · exact List.subset_append_of_subset_left _ (Designator.loads_subset h)
    · exact List.subset_append_of_subset_right _ (Expr.loads_subset h)
  | .ifElse _ condition s₁ s₂, hw, h => by
    cases hw with
    | ifElse he h₁ h₂ =>
      rw [Stmt.nodes, List.mem_append, List.mem_append] at h
      rw [Stmt.loads, List.append_assoc]
      rcases h with h | h | h
      · exact List.subset_append_of_subset_left _ (Expr.loads_subset h)
      · exact List.subset_append_of_subset_right _
          (List.subset_append_of_subset_left _ (Stmt.loads_subset hP h₁ h))
      · exact List.subset_append_of_subset_right _
          (List.subset_append_of_subset_right _ (Stmt.loads_subset hP h₂ h))
  | .whileDo _ condition body, hw, h => by
    cases hw with
    | whileDo he h₁ =>
      rw [Stmt.nodes, List.mem_append] at h
      rw [Stmt.loads]
      rcases h with h | h
      · exact List.subset_append_of_subset_left _ (Expr.loads_subset h)
      · exact List.subset_append_of_subset_right _ (Stmt.loads_subset hP h₁ h)
  | .call c, hw, h => by
    cases hw with
    | call hw =>
      obtain ⟨Q, hQ, hargs⟩ := hw.callee hP
      rw [Stmt.loads, Call.loads, hQ]
      exact Expr.passedLoadsOf_subset hargs h
  | .compound _ ss, hw, h => by
    cases hw with
    | compound hw =>
      rw [Stmt.loads]
      exact Stmt.loadsOf_subset hP hw h
  | .empty _, _, h => by simp [Stmt.nodes] at h

theorem Stmt.loadsOf_subset (hP : t.Declares d P) : ∀ {ss : List Stmt},
    (∀ s ∈ ss, s.WellTyped (t.typeEnv P.localScope)) →
    .expr (.binary p op l r slot) ∈ Stmt.nodesOf ss →
    (Expr.binary p op l r slot).loads ⊆ Stmt.loadsOf t ss
  | [], _, h => by simp [Stmt.nodesOf] at h
  | s :: ss, hw, h => by
    rw [List.forall_mem_cons] at hw
    rw [Stmt.nodesOf, List.mem_append] at h
    rw [Stmt.loadsOf]
    rcases h with h | h
    · exact List.subset_append_of_subset_left _ (Stmt.loads_subset hP hw.1 h)
    · exact List.subset_append_of_subset_right _ (Stmt.loadsOf_subset hP hw.2 h)

end

end

/-- Statements load values of primitive types only exactly if no operator is applied to arrays or
records in them. -/
theorem Stmt.loadsOf_primitive_iff (hH : t.Holds ds) (hP : t.Declares d P) {ss : List Stmt}
    (h : ∀ s ∈ ss, s.WellTyped (t.typeEnv P.localScope)) :
    (∀ x ∈ Stmt.loadsOf t ss, x.IsPrimitive (t.typeEnv P.localScope)) ↔
      ∀ x ∈ Stmt.nodesOf ss, x.PrimitiveOperands := by
  refine ⟨fun hloads x hx => ?_, Stmt.loadsOf_primitive hH hP h⟩
  obtain ⟨xty, hxty⟩ := Stmt.nodesOf_hasType h x hx
  cases x with
  | designator _ => trivial
  | expr e =>
    cases e with
    | literal | unary | designator => trivial
    | binary p op l r slot =>
      have hsub := Stmt.loadsOf_subset hP h hx
      -- both operands have the same type, so the left one stands for both
      obtain ⟨ty, hl, hr⟩ : ∃ ty, l.HasType (t.typeEnv P.localScope) ty ∧
          r.HasType (t.typeEnv P.localScope) ty := by
        cases hxty with
        | arith hl hr => exact ⟨_, hl, hr⟩
        | compare hl hr => exact ⟨_, hl, hr⟩
      intro ty' hty'
      obtain rfl : ty = ty' := by
        rw [hl.type_eq, hr.type_eq] at hty'
        simpa using hty'
      by_contra hagg
      obtain ⟨y, hy, hyty⟩ := hl.exists_load (by simpa using hagg)
      obtain ⟨ty', hyty', hprim⟩ := hloads y (hsub (by simp [Expr.loads, hy]))
      rw [Except.ok.inj (hyty.type_eq.symm.trans hyty'.type_eq)] at hagg
      exact hagg hprim

end Spl
