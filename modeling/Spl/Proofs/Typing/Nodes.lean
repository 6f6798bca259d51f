import Spl.Proofs.Tree.Slots
import Spl.Proofs.Typing.Judgement

/-!
# Nodes of well-typed bodies

The judgement for the nodes of a body: where a statement is well typed, all expressions and
designators in it have types.

* `Node.HasType`: the judgement for a node.
* `Stmt.nodes_hasType`, `Stmt.nodesOf_hasType`: the nodes of well-typed statements.
-/

namespace Spl

deriving instance DecidableEq for Node

variable {E : TypeEnv}

/-- A node has a type, which its slot holds. -/
def Node.HasType (E : TypeEnv) : Node → Ty → Prop
  | .expr e => e.HasType E
  | .designator d => d.HasType E

mutual

/-- The parts of an expression that has a type have types. -/
theorem Expr.HasType.nodes : ∀ {e : Expr} {ty : Ty}, e.HasType E ty →
    ∀ x ∈ e.nodes, ∃ ty, x.HasType E ty
  | _, _, .literal, x, hx => by
    rw [Expr.nodes, List.mem_singleton] at hx
    exact hx ▸ ⟨_, .literal⟩
  | _, _, .designator h, x, hx => by
    rw [Expr.nodes, List.mem_cons] at hx
    rcases hx with rfl | hx
    · exact ⟨_, .designator h⟩
    · exact h.nodes x hx
  | _, _, .unary h hb, x, hx => by
    rw [Expr.nodes, List.mem_cons] at hx
    rcases hx with rfl | hx
    · exact ⟨_, .unary h hb⟩
    · exact h.nodes x hx
  | _, _, .arith hl hr, x, hx => by
    rw [Expr.nodes, List.mem_cons, List.mem_append] at hx
    rcases hx with rfl | hx | hx
    · exact ⟨_, .arith hl hr⟩
    · exact hl.nodes x hx
    · exact hr.nodes x hx
  | _, _, .compare hl hr, x, hx => by
    rw [Expr.nodes, List.mem_cons, List.mem_append] at hx
    rcases hx with rfl | hx | hx
    · exact ⟨_, .compare hl hr⟩
    · exact hl.nodes x hx
    · exact hr.nodes x hx

/-- The parts of a designator that has a type have types. -/
theorem Designator.HasType.nodes : ∀ {d : Designator} {ty : Ty}, d.HasType E ty →
    ∀ x ∈ d.nodes, ∃ ty, x.HasType E ty
  | _, _, .named h, x, hx => by
    rw [Designator.nodes, List.mem_singleton] at hx
    exact hx ▸ ⟨_, .named h⟩
  | _, _, .element ha hi, x, hx => by
    rw [Designator.nodes, List.mem_cons, List.mem_append] at hx
    rcases hx with rfl | hx | hx
    · exact ⟨_, .element ha hi⟩
    · exact ha.nodes x hx
    · exact hi.nodes x hx
  | _, _, .field hr hf, x, hx => by
    rw [Designator.nodes, List.mem_cons] at hx
    rcases hx with rfl | hx
    · exact ⟨_, .field hr hf⟩
    · exact hr.nodes x hx

end

/-- The parts of the arguments of a well-typed call have types. -/
theorem Call.WellTyped.nodes {c : Call} (h : c.WellTyped E) :
    ∀ x ∈ c.arguments.flatMap Expr.nodes, ∃ ty, x.HasType E ty := by
  obtain ⟨parameters, -, hargs⟩ := h
  generalize c.arguments = es at hargs
  induction hargs with
  | nil => simp
  | cons he _ ih =>
    intro x hx
    rw [List.flatMap_cons, List.mem_append] at hx
    rcases hx with hx | hx
    · exact he.1.nodes x hx
    · exact ih x hx

mutual

/-- The nodes of a well-typed statement have types. -/
theorem Stmt.nodes_hasType : ∀ {s : Stmt}, s.WellTyped E → ∀ x ∈ s.nodes, ∃ ty, x.HasType E ty
  | .assign .., h, x, hx => by
    cases h with
    | assign hd he _ =>
      rw [Stmt.nodes, List.mem_append] at hx
      rcases hx with hx | hx
      · exact hd.nodes x hx
      · exact he.nodes x hx
  | .ifElse .., h, x, hx => by
    cases h with
    | ifElse he h₁ h₂ =>
      rw [Stmt.nodes, List.mem_append, List.mem_append] at hx
      rcases hx with hx | hx | hx
      · exact he.nodes x hx
      · exact Stmt.nodes_hasType h₁ x hx
      · exact Stmt.nodes_hasType h₂ x hx
  | .whileDo .., h, x, hx => by
    cases h with
    | whileDo he h₁ =>
      rw [Stmt.nodes, List.mem_append] at hx
      rcases hx with hx | hx
      · exact he.nodes x hx
      · exact Stmt.nodes_hasType h₁ x hx
  | .call c, h, x, hx => by
    cases h with
    | call h => exact h.nodes x hx
  | .compound _ ss, h, x, hx => by
    cases h with
    | compound h => exact Stmt.nodesOf_hasType h x hx
  | .empty _, _, x, hx => by
    rw [Stmt.nodes] at hx
    cases hx

/-- The nodes of a list of well-typed statements have types. -/
theorem Stmt.nodesOf_hasType : ∀ {ss : List Stmt}, (∀ s ∈ ss, s.WellTyped E) →
    ∀ x ∈ Stmt.nodesOf ss, ∃ ty, x.HasType E ty
  | [], _, x, hx => by
    rw [Stmt.nodesOf] at hx
    cases hx
  | s :: ss, h, x, hx => by
    rw [Stmt.nodesOf, List.mem_append] at hx
    rcases hx with hx | hx
    · exact Stmt.nodes_hasType (h s (.head _)) x hx
    · exact Stmt.nodesOf_hasType (fun s' hs' => h s' (.tail _ hs')) x hx

end

end Spl
