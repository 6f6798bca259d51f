import Spl.Proofs.Tree.Bare

/-!
# Statements around a statement

A statement inside another one stands at the end of a way down through the forms around it. Each
form on the way is a layer: a statement from which one of its sub-statements has been taken out.
What is visited before the sub-statement is apart from what is visited behind it.

* `Stmt.Layer`, `Stmt.within`: one layer, and a statement inside a list of layers.
* `Stmt.Layer.earlierSlots`, `Stmt.Layer.laterSlots`: the slots before and behind the sub-statement.
* `Stmt.Layer.SameBefore`, `Stmt.SameHead`: layers and statements that differ in later parts only.
-/

namespace Spl

namespace Stmt

/-- A statement without one of its sub-statements. -/
inductive Layer where
  | inThen (position : Position) (condition : Expr) (elsePart : Stmt)
  | inElse (position : Position) (condition : Expr) (thenPart : Stmt)
  | inLoop (position : Position) (condition : Expr)
  | inCompound (position : Position) (before after : List Stmt)

namespace Layer

/-- The statement that has a given sub-statement. -/
def fill (s : Stmt) : Layer → Stmt
  | .inThen p condition elsePart => .ifElse p condition s elsePart
  | .inElse p condition thenPart => .ifElse p condition thenPart s
  | .inLoop p condition => .whileDo p condition s
  | .inCompound p before after => .compound p (before ++ s :: after)

/-- The layer with all slots empty. -/
def bare : Layer → Layer
  | .inThen p condition elsePart => .inThen p condition.bare elsePart.bare
  | .inElse p condition thenPart => .inElse p condition.bare thenPart.bare
  | .inLoop p condition => .inLoop p condition.bare
  | .inCompound p before after => .inCompound p (bareOf before) (bareOf after)

/-- The slots of what is visited before the sub-statement. -/
def earlierSlots : Layer → List TypeSlot
  | .inThen _ condition _ => condition.slots
  | .inElse _ condition thenPart => condition.slots ++ thenPart.slots
  | .inLoop _ condition => condition.slots
  | .inCompound _ before _ => slotsOf before

/-- The slots of what is visited behind the sub-statement. -/
def laterSlots : Layer → List TypeSlot
  | .inThen _ _ elsePart => elsePart.slots
  | .inElse .. | .inLoop .. => []
  | .inCompound _ _ after => slotsOf after

/-- Two layers that differ at most in what is visited behind the sub-statement. -/
inductive SameBefore : Layer → Layer → Prop
  | inThen {p : Position} {condition : Expr} {elsePart elsePart' : Stmt} :
      SameBefore (.inThen p condition elsePart) (.inThen p condition elsePart')
  | inElse {p : Position} {condition : Expr} {thenPart : Stmt} :
      SameBefore (.inElse p condition thenPart) (.inElse p condition thenPart)
  | inLoop {p : Position} {condition : Expr} :
      SameBefore (.inLoop p condition) (.inLoop p condition)
  | inCompound {p : Position} {before after after' : List Stmt} :
      SameBefore (.inCompound p before after) (.inCompound p before after')

end Layer

/-- A statement inside layers, the outermost of which comes first. -/
def within (layers : List Layer) (s : Stmt) : Stmt := layers.foldr (fun l s => l.fill s) s

@[simp] theorem within_nil (s : Stmt) : within [] s = s := rfl

@[simp] theorem within_cons (l : Layer) (ls : List Layer) (s : Stmt) :
    within (l :: ls) s = l.fill (within ls s) := rfl

/-- The slots of the sub-statements of a statement. -/
def innerSlots : Stmt → List TypeSlot
  | .ifElse _ _ thenPart elsePart => thenPart.slots ++ elsePart.slots
  | .whileDo _ _ body => body.slots
  | .compound _ statements => slotsOf statements
  | .assign .. | .call _ | .empty _ => []

/-- Two statements that differ at most in their sub-statements. -/
inductive SameHead : Stmt → Stmt → Prop
  | assign {p : Position} {target : Designator} {value : Expr} :
      SameHead (.assign p target value) (.assign p target value)
  | ifElse {p : Position} {condition : Expr} {thenPart thenPart' elsePart elsePart' : Stmt} :
      SameHead (.ifElse p condition thenPart elsePart) (.ifElse p condition thenPart' elsePart')
  | whileDo {p : Position} {condition : Expr} {body body' : Stmt} :
      SameHead (.whileDo p condition body) (.whileDo p condition body')
  | call {c : Call} : SameHead (.call c) (.call c)
  | compound {p : Position} {statements statements' : List Stmt} :
      SameHead (.compound p statements) (.compound p statements')
  | empty {p : Position} : SameHead (.empty p) (.empty p)

/-! ## Slots of the parts -/

theorem slotsOf_append (ss ss' : List Stmt) : slotsOf (ss ++ ss') = slotsOf ss ++ slotsOf ss' := by
  rw [slotsOf_eq, slotsOf_eq, slotsOf_eq, List.flatMap_append]

theorem innerSlots_subset (s : Stmt) : s.innerSlots ⊆ s.slots := by
  cases s with
  | assign | call | empty => exact List.nil_subset _
  | ifElse p condition thenPart elsePart => exact List.subset_append_right _ _
  | whileDo p condition body => exact List.subset_append_right _ _
  | compound p ss => exact List.Subset.refl _

theorem Layer.subset_slots_fill (l : Layer) (s : Stmt) :
    l.laterSlots ⊆ (l.fill s).slots ∧ s.slots ⊆ (l.fill s).slots := by
  constructor
  all_goals
    intro x hx
    cases l
    all_goals simp_all [fill, laterSlots, slots, slotsOf_append, slotsOf]

/-- The slots behind a statement that is inside layers are slots of the whole. -/
theorem subset_slots_within (ls : List Layer) (s : Stmt) :
    ls.flatMap Layer.laterSlots ⊆ (within ls s).slots ∧ s.slots ⊆ (within ls s).slots := by
  induction ls with
  | nil => exact ⟨List.nil_subset _, List.Subset.refl _⟩
  | cons l ls ih =>
    obtain ⟨hlater, hinner⟩ := l.subset_slots_fill (within ls s)
    rw [List.flatMap_cons, within_cons]
    exact ⟨List.append_subset.2 ⟨hlater, fun _ hx => hinner (ih.1 hx)⟩,
      fun _ hx => hinner (ih.2 hx)⟩

end Stmt

end Spl
