import Mathlib.Data.List.Forall2
import Spl.Proofs.Code.Generation

/-!
# Distances in code

The code of a body reaches its variables by adding their distances to one register. It does so once
for every occurrence of a variable, in the order of the source, and adds no other number to that
register.

* `Addressing.Reaches`: the distance at which a variable is reached.
* `Addressing.AddsFor`: the instruction for a variable.
* `addedTo`: the numbers that code adds to a register.
* `Stmt.CodeOf.reaches`: the numbers that the code of statements adds.
-/

namespace Spl

variable {t : SymbolTable} {a : Addressing}

/-- A variable is reached at the given distance. -/
def Addressing.Reaches (t : SymbolTable) (a : Addressing) (name : String) (distance : Word) :
    Prop :=
  ∃ v offset, variableAt t a.scope name = .ok v ∧ v.offset = some offset ∧
    a.bias.sum offset = .ok distance

/-- The code of a variable begins with an addition to a register. For a reference, the address is
loaded from there. -/
def Addressing.AddsFor (t : SymbolTable) (a : Addressing) (name : String) (base : Reg)
    (distance : Word) : Prop :=
  ∃ reference : Bool, ∀ (position : Position) (slot : TypeSlot) (g : Generator),
    (Designator.named position name slot).address t a g =
      .ok () (g.add 0 (plain (.alu .add g.registers.current base (.immediate distance)) ::
        if reference then [plain (.load g.registers.current g.registers.current 0)] else []))

/-- The distance at which a variable is reached is added to the base. -/
theorem Addressing.Reaches.addsFor {name : String} {distance : Word}
    (h : a.Reaches t name distance) : a.AddsFor t name a.base distance := by
  obtain ⟨v, offset, hv, ho, hd⟩ := h
  refine ⟨v.isReference, fun position slot g => ?_⟩
  have hends : Ends (fun _ => False) (fun _ g' => g' = g.add 0
      (plain (.alu .add g.registers.current a.base (.immediate distance)) ::
        if v.isReference then [plain (.load g.registers.current g.registers.current 0)] else []))
      ((Designator.named position name slot).address t a) g := by
    unfold Designator.address
    refine .current_bind (.lift_gen_bind hv ?_)
    rw [ho]
    refine .lift_gen_bind hd (.emit_bind ?_)
    cases v.isReference with
    | true => exact .emit (by simp)
    | false => exact .pure rfl
  obtain ⟨⟨⟩, g', hrun⟩ := hends.exists_ok
  obtain rfl := hends.ok hrun
  exact hrun

theorem Addressing.Reaches.unique {name : String} {w w' : Word} (h : a.Reaches t name w)
    (h' : a.Reaches t name w') : w = w' := by
  obtain ⟨v, offset, hv, ho, hw⟩ := h
  obtain ⟨v', offset', hv', ho', hw'⟩ := h'
  obtain rfl : v = v' := Except.ok.inj (hv.symm.trans hv')
  obtain rfl : offset = offset' := Option.some.inj (ho.symm.trans ho')
  exact Except.ok.inj (hw.symm.trans hw')

/-! ## Numbers added to a register -/

/-- The number that an instruction adds to a register. -/
def Inst.addedTo? (base : Reg) : Inst → Option Word
  | .alu .add _ source (.immediate distance) => if source = base then some distance else none
  | _ => none

/-- The numbers that code adds to a register. -/
def addedTo (base : Reg) (code : List Line) : List Word :=
  code.filterMap (·.inst.addedTo? base)

/-- The code adds the distances of the named variables to the base, in the given order, and no other
number. -/
def ReachesAll (t : SymbolTable) (a : Addressing) (names : List String) (code : List Line) : Prop :=
  List.Forall₂ (a.Reaches t) names (addedTo a.base code)

/-- The base is no register in which code computes. -/
structure Addressing.Based (a : Addressing) : Prop where
  not_isFree : a.base.isFree = false
  ne_zero : a.base ≠ .zero

theorem Addressing.Based.current_ne (ha : a.Based) (s : RegisterStack) : s.current ≠ a.base :=
  fun heq => Bool.false_ne_true (ha.not_isFree.symm.trans (heq ▸ s.current_isFree))

/-- Variables are reached from the stack pointer or from the frame pointer. -/
theorem Procedure.based (P : Procedure) (size : Word) : (P.addressing size).Based := by
  unfold addressing
  cases P.layout.isLeaf with
  | true => exact ⟨rfl, show Reg.stackPointer ≠ .zero by decide⟩
  | false => exact ⟨rfl, show Reg.framePointer ≠ .zero by decide⟩

namespace ReachesAll

variable {names names' : List String} {code code' : List Line} {l : Line}

theorem nil : ReachesAll t a [] [] := List.Forall₂.nil

theorem append (h : ReachesAll t a names code) (h' : ReachesAll t a names' code') :
    ReachesAll t a (names ++ names') (code ++ code') := by
  rw [ReachesAll, addedTo, List.filterMap_append]
  exact List.rel_append h h'

theorem cons (h : ReachesAll t a names code) (hl : l.inst.addedTo? a.base = none := by rfl) :
    ReachesAll t a names (l :: code) := by
  have heq : addedTo a.base (l :: code) = addedTo a.base code := List.filterMap_cons_none hl
  rw [ReachesAll, heq]
  exact h

theorem cons_named {r : Reg} {name : String} {distance : Word} (h : ReachesAll t a names code)
    (hd : a.Reaches t name distance) :
    ReachesAll t a (name :: names) (plain (.alu .add r a.base (.immediate distance)) :: code) := by
  have heq : addedTo a.base (plain (.alu .add r a.base (.immediate distance)) :: code) =
      distance :: addedTo a.base code := List.filterMap_cons_some (if_pos rfl)
  rw [ReachesAll, heq]
  exact .cons hd h

/-- Code that is followed by lines that add nothing to the base. -/
theorem append_nil (h : ReachesAll t a names code) (h' : ReachesAll t a [] code') :
    ReachesAll t a names (code ++ code') := by
  have := h.append h'
  rwa [List.append_nil] at this

theorem cons_zero (ha : a.Based) {r : Reg} {w : Word} (h : ReachesAll t a names code) :
    ReachesAll t a names (plain (.alu .add r .zero (.immediate w)) :: code) :=
  h.cons (if_neg ha.ne_zero.symm)

theorem cons_current (ha : a.Based) {r : Reg} {s : RegisterStack} {w : Word}
    (h : ReachesAll t a names code) :
    ReachesAll t a names (plain (.alu .add r s.current (.immediate w)) :: code) :=
  h.cons (if_neg (ha.current_ne s))

end ReachesAll

/-! ## Bodies -/

mutual

theorem Designator.AddressCode.reaches (ha : a.Based) : ∀ {s : RegisterStack} {n : Nat}
    {d : Designator} {code : List Line}, d.AddressCode t a s n code → ReachesAll t a d.names code
  | _, _, _, _, @Designator.AddressCode.named _ _ _ _ _ _ _ v offset _ hv ho hd => by
    rw [Designator.names]
    refine .cons_named ?_ ⟨v, offset, hv, ho, hd⟩
    split
    · exact .cons .nil
    · exact .nil
  | _, _, _, _, .element _ _ _ _ hac hic => by
    rw [Designator.names]
    exact ((hac.reaches ha).append (hic.reaches ha)).append_nil
      (.cons_zero ha (.cons (.cons (.cons .nil))))
  | _, _, _, _, .field _ _ hr => by
    rw [Designator.names]
    refine (hr.reaches ha).append_nil ?_
    split
    · exact .cons_current ha .nil
    · exact .nil

theorem Expr.ValueCode.reaches (ha : a.Based) : ∀ {s : RegisterStack} {n : Nat} {e : Expr}
    {code : List Line}, e.ValueCode t a s n code → ReachesAll t a e.names code
  | _, _, _, _, .literal => by
    rw [Expr.names]
    exact .cons_zero ha .nil
  | _, _, _, _, .unary he => by
    rw [Expr.names]
    exact (he.reaches ha).append_nil (.cons .nil)
  | _, _, _, _, .compare _ hl hr => by
    rw [Expr.names]
    exact ((hl.reaches ha).append (hr.reaches ha)).append_nil
      (.cons (.cons_zero ha (.cons (.cons (.cons_zero ha (.cons .nil))))))
  | _, _, _, _, @Expr.ValueCode.arith _ _ _ _ _ _ op _ _ _ _ _ _ hl hr => by
    rw [Expr.names]
    exact ((hl.reaches ha).append (hr.reaches ha)).append_nil (.cons .nil (by cases op <;> rfl))
  | _, _, _, _, .designator hd => by
    rw [Expr.names]
    exact (hd.reaches ha).append_nil (.cons .nil)

end

theorem Expr.BranchCode.reaches (ha : a.Based) {label : String} {s : RegisterStack} {n : Nat}
    {e : Expr} {code : List Line} (h : e.BranchCode t a label s n code) :
    ReachesAll t a e.names code := by
  cases h with
  | compare _ hl hr =>
    rw [Expr.names]
    exact ((hl.reaches ha).append (hr.reaches ha)).append_nil (.cons .nil)
  | value _ he => exact (he.reaches ha).append_nil (.cons .nil)

theorem Call.ArgumentsCode.reaches (ha : a.Based) {s : RegisterStack} {n index : Nat}
    {es : List Expr} {vs : List Variable} {code : List Line}
    (h : Call.ArgumentsCode t a s n index es vs code) :
    ReachesAll t a (es.flatMap Expr.names) code := by
  induction h with
  | nil => exact .nil
  | value _ _ he _ ih => exact (he.reaches ha).append (.cons ih)
  | reference _ _ hd _ ih =>
    rw [List.flatMap_cons, Expr.names]
    exact (hd.reaches ha).append (.cons ih)

mutual

theorem Stmt.Code.reaches (ha : a.Based) : ∀ {s : RegisterStack} {n : Nat} {st : Stmt}
    {code : List Line}, st.Code t a s n code → ReachesAll t a st.names code
  | _, _, _, _, .assign _ hd he => by
    rw [Stmt.names]
    exact ((hd.reaches ha).append (he.reaches ha)).append_nil (.cons .nil)
  | _, _, _, _, .ifThen hempty he h₁ => by
    rw [Stmt.names, Stmt.names_of_isEmpty hempty, List.append_nil]
    exact ((he.reaches ha).append (h₁.reaches ha)).append_nil (.cons .nil)
  | _, _, _, _, .ifElse _ he h₁ h₂ _ => by
    rw [Stmt.names]
    exact ((((he.reaches ha).append (h₁.reaches ha)).append_nil (.cons (.cons .nil))).append
      (h₂.reaches ha)).append_nil (.cons .nil)
  | _, _, _, _, .whileDo he h₁ => by
    rw [Stmt.names]
    exact (((he.reaches ha).cons).append (h₁.reaches ha)).append_nil (.cons (.cons .nil))
  | _, _, _, _, .call _ hargs => by
    rw [Stmt.names]
    exact (hargs.reaches ha).append_nil (.cons .nil)
  | _, _, _, _, .compound hss => by
    rw [Stmt.names]
    exact hss.reaches ha
  | _, _, _, _, .empty => .nil

/-- The code of statements adds the distances of the variables that occur in them. -/
theorem Stmt.CodeOf.reaches (ha : a.Based) : ∀ {s : RegisterStack} {n : Nat} {ss : List Stmt}
    {code : List Line}, Stmt.CodeOf t a s n ss code → ReachesAll t a (Stmt.namesOf ss) code
  | _, _, _, _, .nil => .nil
  | _, _, _, _, .cons h hs => by
    rw [Stmt.namesOf]
    exact (h.reaches ha).append (hs.reaches ha)

end

end Spl
