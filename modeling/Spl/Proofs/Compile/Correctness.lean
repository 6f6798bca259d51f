import Spl.Proofs.Compile.Faults
import Spl.Proofs.Machine.Statements

/-!
# Correctness of generated code

The code of a statement without calls, in the body of any procedure of an accepted program, ends on
the machine exactly as the statement ends. It goes on for ever exactly if the statement does.

* `Stmt.Code.linked`: the labels of the code of a statement are found in it.
* `runs_code_iff`: correctness of the code of statements.
-/

namespace Spl

open SymbolTable Machine

variable {t : SymbolTable} {a : Addressing} {d : ProcDecl} {P : Procedure} {leaves : Bool}

/-- The labels of the code of a statement are found in it, and the error routine is elsewhere. -/
theorem Stmt.Code.linked {s : RegisterStack} {n : Nat} {st : Stmt} {code : List Line}
    (h : st.Code t a s n code) : Linked code :=
  (h.fragment (T := fun _ => True) ⟨trivial, fun _ _ => trivial⟩ fun _ _ => trivial).linked

/-- The base register of a procedure is none of those in which expressions are computed. -/
theorem Procedure.addressing_base (P : Procedure) (size : Word) :
    (P.addressing size).base.isFree = false := by
  unfold addressing
  split <;> rfl

theorem Placed.enterFrame_eq (hP : t.Declares d P) (hp : Placed leaves t d P) {size : Word}
    (hsize : P.layout.frameSize = .ok (some size)) {g g' : Generator}
    (h : (enterFrame P size).run g = .ok a g') : a = P.addressing size := by
  rcases hp.frameSize_cases hP with ⟨size', hsize', hlink⟩ | ⟨herror, -⟩
  · rw [hsize, Except.ok.injEq, Option.some.injEq] at hsize'
    subst hsize'
    exact ((enterFrame_ends (E := fun _ => True) hlink).ok h).1
  · rw [hsize] at herror
    cases herror

/-- The code at the beginning of a procedure answers how its body reaches its variables: through a
base register outside of the bank, and with all that the code of the body relies on. -/
theorem Allocated.ready_of_enterFrame {p : Program} (h : Allocated leaves t p)
    (hd : d ∈ p.procedures) (hP : t.procedure? d.name = some P) {size : Word}
    (hsize : P.layout.frameSize = .ok (some size)) {g g' : Generator}
    (ha : (enterFrame P size).run g = .ok a g') :
    t.Declares d P ∧ a.scope = P.localScope ∧ a.base.isFree = false ∧ Ready t a := by
  obtain ⟨Q, hQ, hp⟩ := h.placed d hd
  obtain rfl : P = Q := Option.some.inj (hP.symm.trans hQ.procedure)
  obtain rfl := hp.enterFrame_eq hQ hsize ha
  exact ⟨hQ, P.addressing_scope size, P.addressing_base size,
    h.ready hQ hp (P.addressing_scope size)⟩

/-- The code of a statement without calls, in the body of any procedure of an accepted program,
ends on the machine exactly as the statement ends, and the statement does not fault. -/
theorem runs_code_iff (div : Word → Word → Option Word) (o : Options) (p : Program)
    {t t' : SymbolTable} (ht : (buildAndCheck o p).answer = .ok t)
    (hal : (allocate o.leaves (buildAndCheck o p).tree).run t = .ok () t') {d : ProcDecl}
    (hd : d ∈ (buildAndCheck o p).tree.procedures) {P : Procedure}
    (hP : t'.procedure? d.name = some P) {size : Word}
    (hsize : P.layout.frameSize = .ok (some size)) {a : Addressing} {g₀ g₁ : Generator}
    (ha : (enterFrame P size).run g₀ = .ok a g₁) {s : Stmt} (hs : ∃ s' ∈ d.body, s.Within s')
    (hcalls : s.calls = []) {g g' : Generator} (hg : (s.code t' a).run g = .ok () g') :
    ∃ code, g'.lines.toList = g.lines.toList ++ code ∧ ∀ σ : Machine.State,
      (∀ h m', (∃ n σ', Runs div code n ⟨code, σ⟩ h σ' ∧ σ'.memory = m') ↔
        ∃ r, s.Exec div ⟨t', P.localScope, σ.read a.base + a.bias⟩ σ.memory r ∧
          r.halt? = some (h, m')) ∧
      ∀ f m', ¬s.Exec div ⟨t', P.localScope, σ.read a.base + a.bias⟩ σ.memory
        (.trapped (.fault f) m') := by
  have halloc : Allocated o.leaves t' (buildAndCheck o p).tree :=
    (allocate_ends (A := True) (Accepted.of_ok ht) (.inr trivial)).ok hal
  obtain ⟨Q, hQ, hp⟩ := halloc.placed d hd
  have hPQ := hQ.procedure
  rw [hP, Option.some.injEq] at hPQ
  subst hPQ
  have haddr : a = P.addressing size := hp.enterFrame_eq hQ hsize ha
  have hscope : a.scope = P.localScope := haddr ▸ P.addressing_scope size
  have hbase : a.base.isFree = false := haddr ▸ P.addressing_base size
  have hready : Ready t' a := halloc.ready hQ hp hscope
  have hty : s.WellTyped (t'.typeEnv a.scope) := by
    obtain ⟨s', hs', hin⟩ := hs
    rw [hscope]
    exact hin.wellTyped (halloc.accepted.bodies d hd P hQ s' hs')
  obtain ⟨code, hcode, rfl⟩ := (Stmt.code_ends (A := True) hready hty (.inr trivial)).ok hg
  refine ⟨code, by simp [Generator.add], fun σ => ?_⟩
  rw [← hscope]
  have hσ : Situated a ⟨t', a.scope, σ.read a.base + a.bias⟩ σ.memory σ := ⟨rfl, rfl⟩
  refine ⟨hcode.runs_iff hcode.linked hready.fits hbase hty hcalls hσ, fun f m' hr => ?_⟩
  obtain ⟨N, h, σ', -, hend⟩ := hcode.exists_runs hcode.linked hready.fits hbase hty hσ hr
  cases hend

/-- True when code is generated for a statement in the body of a procedure of an accepted program,
from the generator `g₀` on. -/
def generates (g₀ : Generator) (o : Options) (p : Program) (d : ProcDecl) (s : Stmt) : Bool :=
  match (buildAndCheck o p).answer with
  | .error _ => false
  | .ok t =>
    match (allocate o.leaves (buildAndCheck o p).tree).run t with
    | .error _ _ => false
    | .ok _ t' => (t'.procedure? d.name).any fun P =>
      match P.layout.frameSize with
      | .error _ | .ok none => false
      | .ok (some size) =>
        match (enterFrame P size).run g₀ with
        | .error _ _ => false
        | .ok a g =>
          match (s.code t' a).run g with
          | .error _ _ => false
          | .ok _ _ => true

theorem exists_of_generates {g₀ : Generator} {o : Options} {p : Program} {d : ProcDecl} {s : Stmt}
    (h : generates g₀ o p d s = true) : ∃ t t' P size a g g', (buildAndCheck o p).answer = .ok t ∧
      (allocate o.leaves (buildAndCheck o p).tree).run t = .ok () t' ∧
      t'.procedure? d.name = some P ∧ P.layout.frameSize = .ok (some size) ∧
      (enterFrame P size).run g₀ = .ok a g ∧ (s.code t' a).run g = .ok () g' := by
  unfold generates at h
  split at h
  · cases h
  next t ht =>
  split at h
  · cases h
  next t' hal =>
  obtain ⟨P, hP, h⟩ := (Option.any_eq_true _ _).1 h
  split at h
  · cases h
  · cases h
  next size hsize =>
  split at h
  · cases h
  next a g ha =>
  split at h
  · cases h
  next g' hg =>
  exact ⟨t, t', P, size, a, g, g', ht, hal, hP, hsize, ha, hg⟩

/-- The procedure of `squares` that fills an array, after the check. -/
def checkedFill : ProcDecl :=
  (buildAndCheck { leaves := true } squares).tree.procedures.headD { name := "fill" }

/-- The loop in it. -/
def checkedLoop : Stmt := checkedFill.body.getLastD (.empty {})

theorem runs_code_iff_squares : ∃ (t t' : SymbolTable) (P : Procedure) (size : Word)
    (a : Addressing) (g g' : Generator),
    (buildAndCheck { leaves := true } squares).answer = .ok t ∧
    (allocate true (buildAndCheck { leaves := true } squares).tree).run t = .ok () t' ∧
    checkedFill ∈ (buildAndCheck { leaves := true } squares).tree.procedures ∧
    t'.procedure? checkedFill.name = some P ∧ P.layout.frameSize = .ok (some size) ∧
    (enterFrame P size).run {} = .ok a g ∧ (∃ s' ∈ checkedFill.body, checkedLoop.Within s') ∧
    checkedLoop.calls = [] ∧ (checkedLoop.code t' a).run g = .ok () g' ∧
    ∃ code, g'.lines.toList = g.lines.toList ++ code ∧ ∀ σ : Machine.State,
      (∀ h m', (∃ n σ', Runs (fun x y => if y = 0 then none else some (x / y)) code n ⟨code, σ⟩
          h σ' ∧ σ'.memory = m') ↔
        ∃ r, checkedLoop.Exec (fun x y => if y = 0 then none else some (x / y))
          ⟨t', P.localScope, σ.read a.base + a.bias⟩ σ.memory r ∧ r.halt? = some (h, m')) ∧
      ∀ f m', ¬checkedLoop.Exec (fun x y => if y = 0 then none else some (x / y))
        ⟨t', P.localScope, σ.read a.base + a.bias⟩ σ.memory (.trapped (.fault f) m') := by
  have h : generates {} { leaves := true } squares checkedFill checkedLoop = true := by
    decide +kernel
  obtain ⟨t, t', P, size, a, g, g', ht, hal, hP, hsize, ha, hg⟩ := exists_of_generates h
  have hd : checkedFill ∈ (buildAndCheck { leaves := true } squares).tree.procedures := by
    have hne : (buildAndCheck { leaves := true } squares).tree.procedures ≠ [] := by
      decide +kernel
    unfold checkedFill
    rw [List.headD_eq_head?_getD, List.head?_eq_some_head hne]
    exact List.head_mem hne
  have hs : ∃ s' ∈ checkedFill.body, checkedLoop.Within s' := by
    have hne : checkedFill.body ≠ [] := by decide +kernel
    refine ⟨checkedLoop, ?_, .self⟩
    unfold checkedLoop
    rw [List.getLastD_eq_getLast?, List.getLast?_eq_some_getLast hne]
    exact List.getLast_mem hne
  have hcalls : checkedLoop.calls = [] := by decide +kernel
  exact ⟨t, t', P, size, a, g, g', ht, hal, hd, hP, hsize, ha, hs, hcalls, hg,
    runs_code_iff (fun x y => if y = 0 then none else some (x / y)) { leaves := true } squares ht
      hal hd hP hsize ha hs hcalls hg⟩

end Spl
