import Spl.Fault

/-!
# Registers

The machine has general registers, some of which have a fixed role. Registers 8 to 23 form the bank
in which expressions are computed. The bank is used as a stack: a part of an expression takes the
next register, and gives it back when its value has been used.

* `Reg.isFree`: the registers of the bank.
* `RegisterStack.push?`, `RegisterStack.pop`: taking a register and giving it back.
* `RegisterStack.current_isFree`: the current register belongs to the bank.
-/

namespace Spl

/-- A register, by its number. -/
structure Reg where
  number : Nat
  deriving DecidableEq, Inhabited

namespace Reg

/-- Always reads as zero. -/
def zero : Reg := ⟨0⟩

/-- The frame pointer. -/
def framePointer : Reg := ⟨25⟩

/-- The stack pointer. -/
def stackPointer : Reg := ⟨29⟩

/-- The return address, which a call writes. -/
def returnAddress : Reg := ⟨31⟩

/-- The first register of the bank. -/
def firstFree : Reg := ⟨8⟩

/-- The last register of the bank. -/
def lastFree : Reg := ⟨23⟩

/-- True of the registers of the bank. -/
def isFree (r : Reg) : Bool := firstFree.number ≤ r.number && r.number ≤ lastFree.number

/-- A register as the assembler reads it. -/
def text (r : Reg) : String := "$" ++ toString r.number

end Reg

/-- The registers of the bank in use: the first one, which always is, and those above it. -/
structure RegisterStack where
  above : Nat := 0
  above_lt : above < 16 := by decide
  deriving DecidableEq

namespace RegisterStack

/-- The register into which a value is computed now. -/
def current (s : RegisterStack) : Reg := ⟨Reg.firstFree.number + s.above⟩

/-- Takes the next register, unless the last one is in use. -/
def push? (s : RegisterStack) : Option RegisterStack :=
  if h : s.above + 1 < 16 then some ⟨s.above + 1, h⟩ else none

/-- Gives the current register back. The first one is never given back. -/
def pop (s : RegisterStack) : Except Fault RegisterStack :=
  match s with
  | ⟨0, _⟩ => .error .registerStackEmpty
  | ⟨n + 1, h⟩ => .ok ⟨n, by omega⟩

theorem current_isFree (s : RegisterStack) : s.current.isFree = true := by
  have hs := s.above_lt
  have hu : 8 + s.above ≤ 23 := by omega
  exact Bool.and_eq_true_iff.2 ⟨decide_eq_true (Nat.le_add_right ..), decide_eq_true hu⟩

theorem pop_of_push? {s s' : RegisterStack} (h : s.push? = some s') : s'.pop = .ok s := by
  unfold push? at h
  split at h
  · injection h with h
    subst h
    rfl
  · cases h

end RegisterStack

end Spl
