import Spl.Proofs.Compile.Correctness
import Spl.Proofs.Machine.Evaluations
import Spl.Tree.Equality

/-!
# Correctness of the code of expressions

The code of every expression and designator in the body of a procedure of an accepted program
computes its value or address, whatever register it computes into, and disturbs nothing else.

* `code_computes`: what the code does from every state.
* `code_computes_squares`: an instance.
-/

namespace Spl

open Machine

/-- The code of an expression or designator in the body of any procedure of an accepted program
computes its value or its address from every state: it ends behind its last line with the result in
the current register and with the memory and all registers that it does not own as they were; or it
stops in the error routine, exactly if an index that is evaluated is out of bounds; or it stops in a
division without a result. Registers other than the base of the frame have no influence. -/
theorem code_computes (div : Word → Word → Option Word) (o : Options) (p : Program)
    {t t' : SymbolTable} (ht : (buildAndCheck o p).answer = .ok t)
    (hal : (allocate o.leaves (buildAndCheck o p).tree).run t = .ok () t') {d : ProcDecl}
    (hd : d ∈ (buildAndCheck o p).tree.procedures) {P : Procedure}
    (hP : t'.procedure? d.name = some P) {size : Word}
    (hsize : P.layout.frameSize = .ok (some size)) {a : Addressing} {g₀ g₁ : Generator}
    (ha : (enterFrame P size).run g₀ = .ok a g₁) {x : Node} (hx : x ∈ Stmt.nodesOf d.body)
    {g g' : Generator} (hg : (x.generate t' a).run g = .ok () g') :
    ∃ code, g'.lines.toList = g.lines.toList ++ code ∧ g'.registers = g.registers ∧
      (∀ σ : State, Computes div g.registers code σ
        (x.result div ⟨t', P.localScope, σ.read a.base + a.bias⟩ σ.memory)
        (x.indexings div ⟨t', P.localScope, σ.read a.base + a.bias⟩ σ.memory)) ∧
      ∀ σ₁ σ₂ : State, σ₁.memory = σ₂.memory → σ₁.read a.base = σ₂.read a.base →
        ∀ n₁ n₂ h₁ h₂ σ₁' σ₂', Runs div code n₁ ⟨code, σ₁⟩ h₁ σ₁' →
          Runs div code n₂ ⟨code, σ₂⟩ h₂ σ₂' → h₁ = h₂ ∧
            (h₁ = .finished → σ₁'.read g.registers.current = σ₂'.read g.registers.current) := by
  have halloc := Allocated.of_ok ht hal
  obtain ⟨hQ, hscope, hbase, hready⟩ := halloc.ready_of_enterFrame hd hP hsize ha
  obtain ⟨ty, hty⟩ := Stmt.nodesOf_hasType (halloc.accepted.bodies d hd P hQ) x hx
  rw [← hscope] at hty ⊢
  obtain ⟨code, hlines, hregisters, hcode⟩ := x.generate_computes div hready hbase hty hg
  refine ⟨code, hlines, hregisters, hcode, ?_⟩
  intro σ₁ σ₂ hm hr n₁ n₂ h₁ h₂ σ₁' σ₂' hrun₁ hrun₂
  have hcode₁ := hcode σ₁
  rw [hm, hr] at hcode₁
  exact hcode₁.agree (hcode σ₂) hrun₁ hrun₂

/-- An assignment for which code is generated has a target for which code is generated. -/
theorem Stmt.exists_address {t : SymbolTable} {a : Addressing} {q : Position} {x : Designator}
    {e : Expr} {g g' : Generator} (h : ((Stmt.assign q x e).code t a).run g = .ok () g') :
    ∃ g'', (x.address t a).run g = .ok () g'' := by
  cases hx : (x.address t a).run g with
  | ok _ g'' => exact ⟨g'', rfl⟩
  | error f g'' =>
    have hx' : x.address t a g = .error f g'' := hx
    have herror : ((Stmt.assign q x e).code t a).run g = .error f g'' := by
      rw [Stmt.code]
      show (x.address t a >>= _) g = _
      simp only [bind, EStateM.bind, hx']
    rw [herror] at h
    cases h

/-- The element to which the loop of `squares` assigns. -/
def checkedElement : Designator :=
  match checkedLoop with
  | .whileDo _ _ (.compound _ (.assign _ target _ :: _)) => target
  | _ => .named {} "v" {}

theorem code_computes_squares : ∃ (t t' : SymbolTable) (P : Procedure) (size : Word)
    (a : Addressing) (g g' : Generator),
    (buildAndCheck { leaves := true } squares).answer = .ok t ∧
    (allocate true (buildAndCheck { leaves := true } squares).tree).run t = .ok () t' ∧
    checkedFill ∈ (buildAndCheck { leaves := true } squares).tree.procedures ∧
    t'.procedure? checkedFill.name = some P ∧ P.layout.frameSize = .ok (some size) ∧
    (enterFrame P size).run {} = .ok a g ∧
    .designator checkedElement ∈ Stmt.nodesOf checkedFill.body ∧
    ((Node.designator checkedElement).generate t' a).run g = .ok () g' ∧
    ∃ code, g'.lines.toList = g.lines.toList ++ code ∧ g'.registers = g.registers ∧
      (∀ σ : State, Computes (fun x y => if y = 0 then none else some (x / y)) g.registers code σ
        ((Node.designator checkedElement).result (fun x y => if y = 0 then none else some (x / y))
          ⟨t', P.localScope, σ.read a.base + a.bias⟩ σ.memory)
        ((Node.designator checkedElement).indexings
          (fun x y => if y = 0 then none else some (x / y))
          ⟨t', P.localScope, σ.read a.base + a.bias⟩ σ.memory)) ∧
      ∀ σ₁ σ₂ : State, σ₁.memory = σ₂.memory → σ₁.read a.base = σ₂.read a.base →
        ∀ n₁ n₂ h₁ h₂ σ₁' σ₂',
          Runs (fun x y => if y = 0 then none else some (x / y)) code n₁ ⟨code, σ₁⟩ h₁ σ₁' →
          Runs (fun x y => if y = 0 then none else some (x / y)) code n₂ ⟨code, σ₂⟩ h₂ σ₂' →
          h₁ = h₂ ∧
            (h₁ = .finished → σ₁'.read g.registers.current = σ₂'.read g.registers.current) := by
  have h : generates {} { leaves := true } squares checkedFill
      (.assign {} checkedElement (Build.int 0)) = true := by decide +kernel
  have hd : checkedFill ∈ (buildAndCheck { leaves := true } squares).tree.procedures := by
    decide +kernel
  have hx : .designator checkedElement ∈ Stmt.nodesOf checkedFill.body := by decide +kernel
  obtain ⟨t, t', P, size, a, g, g', ht, hal, hP, hsize, ha, hg⟩ := exists_of_generates h
  obtain ⟨g'', hg⟩ := Stmt.exists_address hg
  exact ⟨t, t', P, size, a, g, g'', ht, hal, hd, hP, hsize, ha, hx, hg,
    code_computes (fun x y => if y = 0 then none else some (x / y)) { leaves := true } squares ht
      hal hd hP hsize ha hx hg⟩

end Spl
