import Spl.Tree.Basic

/-!
# Equality of syntax trees

Two trees are equal when they agree in every node, positions and type slots included. The instances
here decide that for the nodes that hold lists of nodes.
-/

namespace Spl

namespace TypeExpr

mutual

/-- Equality of type expressions is decided node by node. -/
def decEq : (s t : TypeExpr) → Decidable (s = t)
  | .named p m s, .named q n t => decidable_of_iff (p = q ∧ m = n ∧ s = t) (by simp)
  | .array p m a s, .array q n b t =>
    have := decEq a b
    decidable_of_iff (p = q ∧ m = n ∧ a = b ∧ s = t) (by simp)
  | .record p fs s, .record q gs t =>
    have := decEqFields fs gs
    decidable_of_iff (p = q ∧ fs = gs ∧ s = t) (by simp)
  | .named .., .array .. | .named .., .record .. => .isFalse nofun
  | .array .., .named .. | .array .., .record .. => .isFalse nofun
  | .record .., .named .. | .record .., .array .. => .isFalse nofun

/-- Equality of the fields of record types. -/
def decEqFields : (fs gs : List (Binding TypeExpr)) → Decidable (fs = gs)
  | [], [] => .isTrue rfl
  | [], _ :: _ => .isFalse nofun
  | _ :: _, [] => .isFalse nofun
  | ⟨p, m, s⟩ :: fs, ⟨q, n, t⟩ :: gs =>
    have := decEq s t
    have := decEqFields fs gs
    decidable_of_iff ((p = q ∧ m = n ∧ s = t) ∧ fs = gs) (by simp)

end

instance : DecidableEq TypeExpr := decEq

end TypeExpr

namespace Stmt

mutual

/-- Equality of statements is decided node by node. -/
def decEq : (s t : Stmt) → Decidable (s = t)
  | .assign p d e, .assign p' d' e' => decidable_of_iff (p = p' ∧ d = d' ∧ e = e') (by simp)
  | .ifElse p c s t, .ifElse p' c' s' t' =>
    have := decEq s s'
    have := decEq t t'
    decidable_of_iff (p = p' ∧ c = c' ∧ s = s' ∧ t = t') (by simp)
  | .whileDo p c s, .whileDo p' c' s' =>
    have := decEq s s'
    decidable_of_iff (p = p' ∧ c = c' ∧ s = s') (by simp)
  | .call c, .call c' => decidable_of_iff (c = c') (by simp)
  | .compound p ss, .compound p' ss' =>
    have := decEqList ss ss'
    decidable_of_iff (p = p' ∧ ss = ss') (by simp)
  | .empty p, .empty p' => decidable_of_iff (p = p') (by simp)
  | .assign .., .ifElse .. | .assign .., .whileDo .. | .assign .., .call _
  | .assign .., .compound .. | .assign .., .empty _ => .isFalse nofun
  | .ifElse .., .assign .. | .ifElse .., .whileDo .. | .ifElse .., .call _
  | .ifElse .., .compound .. | .ifElse .., .empty _ => .isFalse nofun
  | .whileDo .., .assign .. | .whileDo .., .ifElse .. | .whileDo .., .call _
  | .whileDo .., .compound .. | .whileDo .., .empty _ => .isFalse nofun
  | .call _, .assign .. | .call _, .ifElse .. | .call _, .whileDo ..
  | .call _, .compound .. | .call _, .empty _ => .isFalse nofun
  | .compound .., .assign .. | .compound .., .ifElse .. | .compound .., .whileDo ..
  | .compound .., .call _ | .compound .., .empty _ => .isFalse nofun
  | .empty _, .assign .. | .empty _, .ifElse .. | .empty _, .whileDo ..
  | .empty _, .call _ | .empty _, .compound .. => .isFalse nofun

/-- Equality of lists of statements. -/
def decEqList : (ss ts : List Stmt) → Decidable (ss = ts)
  | [], [] => .isTrue rfl
  | [], _ :: _ => .isFalse nofun
  | _ :: _, [] => .isFalse nofun
  | s :: ss, t :: ts =>
    have := decEq s t
    have := decEqList ss ts
    decidable_of_iff (s = t ∧ ss = ts) (by simp)

end

instance : DecidableEq Stmt := decEq

end Stmt

deriving instance DecidableEq for ParamDecl

deriving instance DecidableEq for ProcDecl

deriving instance DecidableEq for Decl

deriving instance DecidableEq for Program

end Spl
