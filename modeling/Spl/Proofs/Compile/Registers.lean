import Spl.Proofs.Code.Registers
import Spl.Proofs.Compile.Leaves
import Spl.Proofs.Compile.Reruns
import Spl.Tree.Build

/-!
# Compiling within the register bank

The number of registers that the statements of a program need decides whether code generation finds
one each time that it asks for one.

* `Expr.pushes_bare`, `Program.pushes_eq`: the slots of the tree have no influence.
* `Stmt.Shuffled`, `Program.Shuffled`: the same statements and procedures in another order.
* `Program.Shuffled.fitsBank_iff`: the order has no influence.
* `generate_fits_bank`: the condition under which a module is generated.
-/

namespace Spl

/-! ## Checked trees -/

mutual

@[simp] theorem Expr.pushes_bare : ∀ (e : Expr) (r : Nat), e.bare.pushes r = e.pushes r
  | .literal .., r => by simp only [Expr.bare, Expr.pushes]
  | .unary _ _ operand _, r => by
    simp only [Expr.bare, Expr.pushes, operand.pushes_bare]
  | .binary _ _ left right _, r => by
    simp only [Expr.bare, Expr.pushes, left.pushes_bare, right.pushes_bare]
  | .designator _ target _, r => by
    simp only [Expr.bare, Expr.pushes, target.pushes_bare]

@[simp] theorem Designator.pushes_bare : ∀ (x : Designator) (r : Nat),
    x.bare.pushes r = x.pushes r
  | .named .., r => by simp only [Designator.bare, Designator.pushes]
  | .element _ array index _, r => by
    simp only [Designator.bare, Designator.pushes, array.pushes_bare, index.pushes_bare]
  | .field _ record _ _, r => by
    simp only [Designator.bare, Designator.pushes, record.pushes_bare]

end

mutual

@[simp] theorem Stmt.pushes_bare : ∀ (s : Stmt) (r : Nat), s.bare.pushes r = s.pushes r
  | .assign .., r => by
    simp only [Stmt.bare, Stmt.pushes, Designator.pushes_bare, Expr.pushes_bare]
  | .ifElse _ _ s₁ s₂, r => by
    simp only [Stmt.bare, Stmt.pushes, Expr.pushes_bare, s₁.pushes_bare, s₂.pushes_bare]
  | .whileDo _ _ body, r => by
    simp only [Stmt.bare, Stmt.pushes, Expr.pushes_bare, body.pushes_bare]
  | .call c, r => by
    simp only [Stmt.bare, Stmt.pushes, Call.bare, List.flatMap_map, Expr.pushes_bare]
  | .compound _ ss, r => by
    simp only [Stmt.bare, Stmt.pushes, Stmt.pushesOf_bare ss]
  | .empty _, r => by simp only [Stmt.bare, Stmt.pushes]

@[simp] theorem Stmt.pushesOf_bare : ∀ (ss : List Stmt) (r : Nat),
    Stmt.pushesOf r (Stmt.bareOf ss) = Stmt.pushesOf r ss
  | [], r => by simp only [Stmt.bareOf, Stmt.pushesOf]
  | s :: ss, r => by
    simp only [Stmt.bareOf, Stmt.pushesOf, s.pushes_bare, Stmt.pushesOf_bare ss]

end

namespace Program

variable {p q : Program}

theorem procedures_bare (p : Program) : p.bare.procedures = p.procedures.map ProcDecl.bare := by
  unfold procedures
  rw [bare, List.filterMap_map, List.map_filterMap]
  refine List.filterMap_congr fun d _ => ?_
  cases d <;> rfl

@[simp] theorem pushes_bare (p : Program) : p.bare.pushes = p.pushes := by
  unfold pushes
  rw [procedures_bare, List.flatMap_map]
  exact List.flatMap_congr fun d _ => Stmt.pushesOf_bare d.body _

/-- A program asks for the same registers before and after a pass. -/
theorem pushes_of_kept (h : Slotted.Kept p q) : q.pushes = p.pushes := by
  have hbare : q.bare = p.bare := h.bare
  rw [← pushes_bare q, hbare, pushes_bare]

theorem fitsBank_of_kept (h : Slotted.Kept p q) : q.FitsBank ↔ p.FitsBank := by
  rw [← pushes_spare_iff, pushes_of_kept h, pushes_spare_iff]

end Program

/-! ## Other orders -/

mutual

/-- The same statement, with the statements inside compound statements in any order. -/
inductive Stmt.Shuffled : Stmt → Stmt → Prop
  | same (s : Stmt) : Shuffled s s
  | ifElse {q : Position} {e : Expr} {s₁ s₂ s₁' s₂' : Stmt} :
      Shuffled s₁ s₁' → Shuffled s₂ s₂' → Shuffled (.ifElse q e s₁ s₂) (.ifElse q e s₁' s₂')
  | whileDo {q : Position} {e : Expr} {s s' : Stmt} :
      Shuffled s s' → Shuffled (.whileDo q e s) (.whileDo q e s')
  | compound {q : Position} {ss ss' : List Stmt} :
      ShuffledOf ss ss' → Shuffled (.compound q ss) (.compound q ss')

/-- The same statements in any order. -/
inductive Stmt.ShuffledOf : List Stmt → List Stmt → Prop
  | nil : ShuffledOf [] []
  | cons {s s' : Stmt} {ss ss' : List Stmt} :
      Shuffled s s' → ShuffledOf ss ss' → ShuffledOf (s :: ss) (s' :: ss')
  | swap (s s' : Stmt) (ss : List Stmt) : ShuffledOf (s :: s' :: ss) (s' :: s :: ss)
  | trans {ss ss' ss'' : List Stmt} :
      ShuffledOf ss ss' → ShuffledOf ss' ss'' → ShuffledOf ss ss''

end

/-- The same procedure, with its statements in any order. -/
structure ProcDecl.Shuffled (d d' : ProcDecl) : Prop where
  head : d'.head = d.head
  body : Stmt.ShuffledOf d.body d'.body

/-- The same procedures in any order, with their statements in any order. -/
def Program.Shuffled (p p' : Program) : Prop :=
  ∃ ds, p.procedures.Perm ds ∧ List.Forall₂ ProcDecl.Shuffled ds p'.procedures

mutual

theorem Stmt.Shuffled.need : ∀ {s s' : Stmt}, s.Shuffled s' → s'.need = s.need
  | _, _, .same _ => rfl
  | _, _, .ifElse h₁ h₂ => by
    rw [Stmt.need, Stmt.need, h₁.need, h₂.need]
  | _, _, .whileDo h => by
    rw [Stmt.need, Stmt.need, h.need]
  | _, _, .compound h => by
    rw [Stmt.need, Stmt.need, h.need]

theorem Stmt.ShuffledOf.need : ∀ {ss ss' : List Stmt}, Stmt.ShuffledOf ss ss' →
    Stmt.needOf ss' = Stmt.needOf ss
  | _, _, .nil => rfl
  | _, _, .cons h hs => by
    rw [Stmt.needOf, Stmt.needOf, h.need, hs.need]
  | _, _, .swap s s' ss => by
    simp only [Stmt.needOf]
    exact Nat.max_left_comm ..
  | _, _, .trans h h' => h'.need.trans h.need

end

theorem ProcDecl.Shuffled.fits_iff {n : Nat} {ds ds' : List ProcDecl}
    (h : List.Forall₂ ProcDecl.Shuffled ds ds') :
    (∀ d ∈ ds', ∀ s ∈ d.body, s.need ≤ n) ↔ ∀ d ∈ ds, ∀ s ∈ d.body, s.need ≤ n := by
  simp only [← Stmt.needOf_le_iff]
  induction h with
  | nil => rfl
  | cons hd _ ih => rw [List.forall_mem_cons, List.forall_mem_cons, ih, hd.body.need]

/-- The order of statements and procedures has no influence on whether they fit the bank. -/
theorem Program.Shuffled.fitsBank_iff {p p' : Program} (h : p.Shuffled p') :
    p'.FitsBank ↔ p.FitsBank := by
  obtain ⟨ds, hperm, hbodies⟩ := h
  rw [FitsBank, ProcDecl.Shuffled.fits_iff hbodies]
  exact forall_congr' fun d => imp_congr_left hperm.mem_iff.symm

/-! ## Modules -/

/-- A module is generated if all statements fit the bank. If not, the first register that is not
there is reported. -/
theorem Allocated.generate_cases {leaves : Bool} {t : SymbolTable} {p : Program}
    (h : Allocated leaves t p)
    (hne : ∀ op, generate t p ≠ .error (.fault (.overflow op))) :
    (p.FitsBank ∧ ∃ lines, generate t p = .ok lines) ∨
      ¬p.FitsBank ∧ ∃ q, p.pushes.find? Push.fails = some q ∧
        generate t p = .error (.error ⟨q.position, .registersExhausted⟩) := by
  have htakes := generate_takes h
  have hmeets := generate_meets (A := True) h (.inr trivial)
  rw [← Program.pushes_spare_iff]
  cases hg : generate t p with
  | ok lines =>
    rw [hg] at htakes
    exact .inl ⟨htakes, lines, rfl⟩
  | error e =>
    rw [hg] at htakes hmeets
    cases e with
    | error e =>
      obtain ⟨q, hq, rfl⟩ := htakes
      exact .inr ⟨Push.not_spares_of_find? hq, q, hq, rfl⟩
    | fault f =>
      obtain ⟨rfl, -⟩ := hmeets
      exact absurd hg (hne _)

section

variable {o : Options} {p : Program} {t t' : SymbolTable}

theorem generate_cases (ht : (buildAndCheck o p).answer = .ok t)
    (hal : (allocate o.leaves (buildAndCheck o p).tree).run t = .ok () t')
    (hne : ∀ op, generate t' (buildAndCheck o p).tree ≠ .error (.fault (.overflow op))) :
    (p.FitsBank ∧ ∃ lines, generate t' (buildAndCheck o p).tree = .ok lines) ∨
      ¬p.FitsBank ∧ ∃ q, p.pushes.find? Push.fails = some q ∧
        generate t' (buildAndCheck o p).tree =
          .error (.error ⟨q.position, .registersExhausted⟩) := by
  have hkept := buildAndCheck_kept o p
  rw [← Program.fitsBank_of_kept hkept, ← Program.pushes_of_kept hkept]
  exact (Allocated.of_ok ht hal).generate_cases hne

theorem generate_ok_iff (ht : (buildAndCheck o p).answer = .ok t)
    (hal : (allocate o.leaves (buildAndCheck o p).tree).run t = .ok () t')
    (hne : ∀ op, generate t' (buildAndCheck o p).tree ≠ .error (.fault (.overflow op))) :
    (∃ lines, generate t' (buildAndCheck o p).tree = .ok lines) ↔ p.FitsBank := by
  rcases generate_cases ht hal hne with ⟨hfits, hok⟩ | ⟨hfits, q, -, hg⟩
  · exact iff_of_true hok hfits
  · rw [hg]
    exact iff_of_false nofun hfits

end

/-- Code generation for an accepted program succeeds, where no sum overflows, exactly if no
statement needs more than the 16 registers of the bank. Otherwise it reports the node that is the
first to ask for a register while the last one is in use. So the order of statements and procedures
and the choice of leaf frames have no influence. -/
theorem generate_fits_bank (o : Options) (p : Program) {t t' : SymbolTable}
    (ht : (buildAndCheck o p).answer = .ok t)
    (hal : (allocate o.leaves (buildAndCheck o p).tree).run t = .ok () t')
    (hne : ∀ op, generate t' (buildAndCheck o p).tree ≠ .error (.fault (.overflow op))) :
    ((∃ lines, generate t' (buildAndCheck o p).tree = .ok lines) ↔ p.FitsBank) ∧
    (¬p.FitsBank → ∃ q, p.pushes.find? Push.fails = some q ∧
      generate t' (buildAndCheck o p).tree =
        .error (.error ⟨q.position, .registersExhausted⟩)) ∧
    ∀ (o' : Options) (p' : Program) (u u' : SymbolTable), p.Shuffled p' →
      (buildAndCheck o' p').answer = .ok u →
      (allocate o'.leaves (buildAndCheck o' p').tree).run u = .ok () u' →
      (∀ op, generate u' (buildAndCheck o' p').tree ≠ .error (.fault (.overflow op))) →
      ((∃ lines, generate t' (buildAndCheck o p).tree = .ok lines) ↔
        ∃ lines, generate u' (buildAndCheck o' p').tree = .ok lines) := by
  have hiff := generate_ok_iff ht hal hne
  refine ⟨hiff, fun hfits => ?_, fun o' p' u u' hp hu hal' hne' => ?_⟩
  · exact ((generate_cases ht hal hne).resolve_left fun h => hfits h.1).2
  · rw [hiff, generate_ok_iff hu hal' hne', hp.fitsBank_iff]

/-- Where a compilation does not end in a fault, an accepted program is allocated, and no sum of its
code overflows. -/
theorem exists_allocated_of_compile {o : Options} {p : Program} {t : SymbolTable}
    (ht : (buildAndCheck o p).answer = .ok t)
    (h : ∀ f, (compile o p).answer ≠ .error (.fault f)) :
    ∃ t', (allocate o.leaves (buildAndCheck o p).tree).run t = .ok () t' ∧
      ∀ f, generate t' (buildAndCheck o p).tree ≠ .error (.fault f) := by
  have hne := fun f => ne_fault_of_compile (f := f) ht (h f)
  cases hal : allocate o.leaves (buildAndCheck o p).tree t with
  | error f t' => exact absurd (allocateAndGenerate_of_error hal) (hne f t')
  | ok _ t' =>
    refine ⟨t', hal, fun f hg => hne f t' ?_⟩
    rw [allocateAndGenerate_of_allocated hal, hg]

section
open Build

/-- A sum of `n + 1` ones, added from the right. Each sum is in the line of its number. -/
def tower : Nat → Expr
  | 0 => int 1
  | n + 1 => .binary ⟨UInt32.ofNat (n + 1), 0⟩ (.arith .add) (int 1) (tower n) {}

/-- Assignments of such a sum and of zero, in this order or in the other one. -/
def towers (n : Nat) (reversed : Bool) : Program :=
  let body := [assign (named "x") (tower n), assign (named "x") (int 0)]
  program [procDecl "main" [] [varDecl "x" intType] (if reversed then body.reverse else body)]

theorem towers_shuffled (n : Nat) : (towers n false).Shuffled (towers n true) :=
  ⟨_, .refl _, .cons ⟨rfl, .swap _ _ []⟩ .nil⟩

/-- A program is accepted, and its code needs too many registers. -/
def runsOut (o : Options) (p : Program) : Bool :=
  match (buildAndCheck o p).answer, (compile o p).answer with
  | .ok _, .error (.codegen _) => true
  | _, _ => false

theorem exists_allocated_of_runsOut {o : Options} {p : Program} (h : runsOut o p = true) :
    ∃ t t', (buildAndCheck o p).answer = .ok t ∧
      (allocate o.leaves (buildAndCheck o p).tree).run t = .ok () t' ∧
      ∀ op, generate t' (buildAndCheck o p).tree ≠ .error (.fault (.overflow op)) := by
  unfold runsOut at h
  split at h
  · next t e ht hcode =>
    obtain ⟨t', hal, hne⟩ := exists_allocated_of_compile ht (by rw [hcode]; exact nofun)
    exact ⟨t, t', ht, hal, fun op => hne _⟩
  · cases h

/-- The sum in the first line finds no register for its second operand. -/
theorem generate_fits_bank_towers : ∃ t t' u u',
    (buildAndCheck {} (towers 15 false)).answer = .ok t ∧
    (allocate false (buildAndCheck {} (towers 15 false)).tree).run t = .ok () t' ∧
    (∀ op, generate t' (buildAndCheck {} (towers 15 false)).tree ≠
      .error (.fault (.overflow op))) ∧
    (towers 15 false).Shuffled (towers 15 true) ∧
    (buildAndCheck { leaves := true } (towers 15 true)).answer = .ok u ∧
    (allocate true (buildAndCheck { leaves := true } (towers 15 true)).tree).run u = .ok () u' ∧
    (∀ op, generate u' (buildAndCheck { leaves := true } (towers 15 true)).tree ≠
      .error (.fault (.overflow op))) ∧
    (towers 14 false).FitsBank ∧ ¬(towers 15 false).FitsBank ∧
    generate t' (buildAndCheck {} (towers 15 false)).tree =
      .error (.error ⟨⟨1, 0⟩, .registersExhausted⟩) ∧
    ¬∃ lines, generate u' (buildAndCheck { leaves := true } (towers 15 true)).tree = .ok lines := by
  have hfind : (towers 15 false).pushes.find? Push.fails = some ⟨⟨1, 0⟩, 23⟩ := by decide +kernel
  have hfits : (towers 14 false).FitsBank ∧ ¬(towers 15 false).FitsBank := by
    decide +kernel
  obtain ⟨t, t', ht, hal, hne⟩ :=
    exists_allocated_of_runsOut (o := {}) (p := towers 15 false) (by decide +kernel)
  obtain ⟨u, u', hu, hal', hne'⟩ :=
    exists_allocated_of_runsOut (o := { leaves := true }) (p := towers 15 true) (by decide +kernel)
  obtain ⟨hiff, hfails, hother⟩ := generate_fits_bank {} (towers 15 false) ht hal hne
  refine ⟨t, t', u, u', ht, hal, hne, towers_shuffled 15, hu, hal', hne', hfits.1, hfits.2, ?_, ?_⟩
  · obtain ⟨q, hq, hg⟩ := hfails hfits.2
    rw [hfind, Option.some.injEq] at hq
    rw [hg, ← hq]
  · rw [← hother _ _ u u' (towers_shuffled 15) hu hal' hne', hiff]
    exact hfits.2

end

end Spl
