import Spl.Fault

/-!
# Type slots

A node whose type is computed holds that type in a slot. The slot is empty in a new tree, the pass
that computes the type fills it, and later passes only read it.

* `TypeSlot.fill_eq_ok_iff`: what a slot accepts, and what it holds then.
* `TypeSlot.expect_eq_ok_iff`: reading a slot succeeds exactly when it is filled.
-/

namespace Spl

/-- The computed type of a node, or nothing before it is computed. -/
structure TypeSlot where
  type? : Option Ty := none
  deriving DecidableEq, Inhabited

namespace TypeSlot

/-- Fills a slot. A slot that is filled already accepts the same type again, and no other. -/
def fill (slot : TypeSlot) (type : Ty) : Except Fault TypeSlot :=
  match slot.type? with
  | none => .ok ⟨some type⟩
  | some old => if old = type then .ok slot else .error (.retyped old type)

/-- Reads the slot of the given kind of node, which an earlier pass must have filled. -/
def expect (slot : TypeSlot) (node : String) : Except Fault Ty :=
  match slot.type? with
  | some type => .ok type
  | none => .error (.untyped node)

theorem fill_eq_ok_iff {slot slot' : TypeSlot} {type : Ty} :
    slot.fill type = .ok slot' ↔
      slot'.type? = some type ∧ (slot.type? = none ∨ slot.type? = some type) := by
  obtain ⟨old?⟩ := slot
  obtain ⟨new?⟩ := slot'
  cases old? with
  | none => simp [fill, eq_comm]
  | some old =>
    by_cases h : old = type
    · simp [fill, h, eq_comm]
    · simp [fill, h]

theorem expect_eq_ok_iff {slot : TypeSlot} {node : String} {type : Ty} :
    slot.expect node = .ok type ↔ slot.type? = some type := by
  obtain ⟨type?⟩ := slot
  cases type? <;> simp [expect]

end TypeSlot

end Spl
