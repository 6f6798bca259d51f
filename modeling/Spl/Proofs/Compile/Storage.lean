import Spl.Proofs.Code.Displacement
import Spl.Proofs.Code.Loads
import Spl.Proofs.Compile.Correctness
import Spl.Proofs.Machine.Evaluations
import Spl.Tree.Equality

/-!
# Storage of accepted programs

Which bytes the designators of an accepted program denote, which addresses its code computes for
them, and which bytes it loads.

* `Designator.AddsUp`: the code for the address of a designator adds distances to the address of the
  variable.
* `designator_inside_variable`: designators stay inside their variables, and parts of a variable
  that are reached in different ways are disjoint.
* `loads_word_iff`: the condition under which each load reads a whole value.
* `exists_aggregate_load`: an accepted program may violate it.
-/

namespace Spl

open SymbolTable Machine

variable {t : SymbolTable} {p : Program} {d : ProcDecl} {P : Procedure}

/-- A designator in a body stays inside its variable, and apart from other parts of it. -/
theorem Accepted.inside_variable (hA : Accepted t p) (hd : d ∈ p.procedures)
    (hP : t.Declares d P) {x : Designator} (hx : .designator x ∈ Stmt.nodesOf d.body) :
    ∃ ty T ref, x.HasType (t.typeEnv P.localScope) ty ∧
      (t.typeEnv P.localScope).var? x.root = some (T, ref) ∧
      ∃ v, variableAt t P.localScope x.root = .ok v ∧ v.type = T ∧ x.Inside v.type ∧
        ∀ x', x.Apart v.type x' := by
  have hE := hA.holds.fits hP
  obtain ⟨ty, hty⟩ := Stmt.nodesOf_hasType (hA.bodies d hd P hP) _ hx
  obtain ⟨T, ref, hv⟩ := Designator.HasType.root hty
  obtain ⟨v, hvar, hview⟩ := variableAt_eq (a := ⟨P.localScope, .zero, 0⟩) hv
  obtain ⟨rfl, -⟩ := Prod.mk.inj hview
  exact ⟨ty, _, ref, hty, hv, v, hvar, rfl, hty.inside hE hv, fun x' => x.apart x' (hE _ _ _ hv)⟩

/-- The code for the address of a designator adds to the address of the variable, of type `T`, the
distances of a chain of accesses, if it runs to its end. -/
def Designator.AddsUp (T : Ty) (t : SymbolTable) (a : Addressing) (x : Designator) : Prop :=
  ∀ (div : Word → Word → Option Word) (g g' : Generator), (x.address t a).run g = .ok () g' →
    ∃ code, g'.lines.toList = g.lines.toList ++ code ∧
      ∀ n σ σ', Runs div code n ⟨code, σ⟩ .finished σ' →
        ∃ as start, x.Accesses as ∧
          Activation.addressOf ⟨t, a.scope, σ.read a.base + a.bias⟩ σ.memory x.root = .ok start ∧
          ∀ ds ty, T.Reaches as ds ty →
            σ'.read g.registers.current = start + Int32.ofInt ds.sum

/-- In the code of an allocated procedure, addresses are added up so. -/
theorem Allocated.addsUp {leaves : Bool} (h : Allocated leaves t p) (hd : d ∈ p.procedures)
    (hP : t.procedure? d.name = some P) {size : Word}
    (hsize : P.layout.frameSize = .ok (some size)) {a : Addressing} {g₀ g₁ : Generator}
    (ha : (enterFrame P size).run g₀ = .ok a g₁) {x : Designator}
    (hx : .designator x ∈ Stmt.nodesOf d.body) {E : TypeEnv} {ty T : Ty} {ref : Bool}
    (hty : x.HasType E ty) (hT : E.var? x.root = some (T, ref)) : x.AddsUp T t a := by
  intro div g g' hg
  obtain ⟨hQ, hscope, hbase, hready⟩ := h.ready_of_enterFrame hd hP hsize ha
  obtain ⟨ty', hty'⟩ := Stmt.nodesOf_hasType (h.accepted.bodies d hd P hQ) _ hx
  rw [← hscope] at hty'
  obtain ⟨T', ref', hT'⟩ := Designator.HasType.root hty'
  obtain rfl := hty.root_type_eq hty' hT hT'
  obtain ⟨code, hlines, -, hcode⟩ :=
    (Node.designator x).generate_computes div hready hbase hty' hg
  refine ⟨code, hlines, fun n σ σ' hrun => ?_⟩
  cases (hcode σ).ended _ _ _ hrun with
  | finished hvalue _ _ =>
    obtain ⟨as, ds, start, has, hds, hstart, hsum⟩ :=
      Designator.locate_eq_add hready.fits hty' hT' hvalue
    refine ⟨as, start, has, hstart, fun ds' ty hds' => ?_⟩
    rw [hsum, (hds.unique hds').1]

/-- The designators in the body of a procedure of an accepted program stay inside their variables,
whatever indices within the bounds they meet. Where the accesses of two of them to one variable
diverge, they denote disjoint bytes. In a table in which the frames are allocated, with leaf frames
or without, the code adds their distances to the addresses of their variables. -/
theorem designator_inside_variable (o : Options) (p : Program) {t : SymbolTable}
    (ht : (buildAndCheck o p).answer = .ok t) {d : ProcDecl}
    (hd : d ∈ (buildAndCheck o p).tree.procedures) {P : Procedure}
    (hP : t.procedure? d.name = some P) {x : Designator}
    (hx : .designator x ∈ Stmt.nodesOf d.body) :
    ∃ v, variableAt t P.localScope x.root = .ok v ∧ x.Inside v.type ∧
      (∀ x', .designator x' ∈ Stmt.nodesOf d.body → x'.root = x.root → x.Apart v.type x') ∧
      ∀ leaves t', (allocate leaves (buildAndCheck o p).tree).run t = .ok () t' →
        ∀ Q size a g₀ g₁, t'.procedure? d.name = some Q → Q.layout.frameSize = .ok (some size) →
          (enterFrame Q size).run g₀ = .ok a g₁ → x.AddsUp v.type t' a := by
  have hA := Accepted.of_ok ht
  obtain ⟨Q, hQ⟩ := hA.declares hd
  obtain rfl : P = Q := Option.some.inj (hP.symm.trans hQ.procedure)
  obtain ⟨ty, T, ref, hty, hT, v, hv, rfl, hinside, hapart⟩ := hA.inside_variable hd hQ hx
  refine ⟨v, hv, hinside, fun x' _ _ => hapart x', ?_⟩
  intro leaves t' hal Q size a g₀ g₁ hQ hsize ha
  have halloc : Allocated leaves t' (buildAndCheck o p).tree :=
    (allocate_ends (A := True) hA (.inr trivial)).ok hal
  exact halloc.addsUp hd hQ hsize ha hx hty hT

section
open Build

/-- A program with an array of records. -/
def cells : Program := program [
  typeDecl "cell" (recordType [varDecl "width" intType, varDecl "height" intType]),
  procDecl "main" [] [varDecl "grid" (arrayType 3 (namedType "cell")), varDecl "i" intType] [
    assign (field (index (named "grid") (var (named "i"))) "height")
      (var (field (index (named "grid") (int 2)) "width"))]]

/-- Its procedure after the check. -/
def checkedCells : ProcDecl := (buildAndCheck {} cells).tree.procedures.headD { name := "main" }

/-- The target of the assignment. -/
def checkedTarget : Designator :=
  match checkedCells.body with
  | .assign _ target _ :: _ => target
  | _ => named "grid"

/-- The program is accepted, and its procedure has the assignment. -/
theorem cells_accepted : (∃ t, (buildAndCheck {} cells).answer = .ok t) ∧
    checkedCells ∈ (buildAndCheck {} cells).tree.procedures ∧
    .designator checkedTarget ∈ Stmt.nodesOf checkedCells.body := by
  have h : (buildAndCheck {} cells).answer.toOption.isSome = true ∧
      checkedCells ∈ (buildAndCheck {} cells).tree.procedures ∧
      .designator checkedTarget ∈ Stmt.nodesOf checkedCells.body := by decide +kernel
  exact ⟨exists_ok_of_isSome h.1, h.2⟩

theorem designator_inside_variable_cells : ∃ t P, (buildAndCheck {} cells).answer = .ok t ∧
    checkedCells ∈ (buildAndCheck {} cells).tree.procedures ∧
    t.procedure? checkedCells.name = some P ∧
    .designator checkedTarget ∈ Stmt.nodesOf checkedCells.body ∧
    ∃ v, variableAt t P.localScope checkedTarget.root = .ok v ∧ checkedTarget.Inside v.type ∧
      (∀ x', .designator x' ∈ Stmt.nodesOf checkedCells.body → x'.root = checkedTarget.root →
        checkedTarget.Apart v.type x') ∧
      ∀ leaves t', (allocate leaves (buildAndCheck {} cells).tree).run t = .ok () t' →
        ∀ Q size a g₀ g₁, t'.procedure? checkedCells.name = some Q →
          Q.layout.frameSize = .ok (some size) → (enterFrame Q size).run g₀ = .ok a g₁ →
            checkedTarget.AddsUp v.type t' a := by
  obtain ⟨⟨t, ht⟩, hd, hx⟩ := cells_accepted
  obtain ⟨P, hP⟩ := (Accepted.of_ok ht).declares hd
  exact ⟨t, P, ht, hd, hP.procedure, hx,
    designator_inside_variable {} cells ht hd hP.procedure hx⟩

end

/-- The load of a designator reads a whole value of a primitive type, and only bytes of its
variable. -/
def Designator.LoadsWord (t : SymbolTable) (scope : ScopeId) (x : Designator) : Prop :=
  ∃ v ty, variableAt t scope x.root = .ok v ∧ x.Inside v.type ∧ x.type = .ok ty ∧
    ty.isAggregate = false ∧ ty.byteSize = .ok wordBytes

theorem Ty.byteSize_of_not_isAggregate {ty : Ty} (h : ty.isAggregate = false) :
    ty.byteSize = .ok wordBytes := by
  cases ty with
  | int | bool => simp [byteSize]
  | array | record => cases h

/-- In the body of a procedure of an accepted program, every designator that is evaluated to a value
has a primitive type, so that its load reads the whole value, exactly if no binary operator is
applied to arrays or records. -/
theorem loads_word_iff (o : Options) (p : Program) {t : SymbolTable}
    (ht : (buildAndCheck o p).answer = .ok t) {d : ProcDecl}
    (hd : d ∈ (buildAndCheck o p).tree.procedures) {P : Procedure}
    (hP : t.procedure? d.name = some P) :
    (∀ x ∈ Stmt.loadsOf t d.body, x.LoadsWord t P.localScope) ↔
      ∀ x ∈ Stmt.nodesOf d.body, x.PrimitiveOperands := by
  have hA := Accepted.of_ok ht
  obtain ⟨Q, hQ⟩ := hA.declares hd
  obtain rfl : P = Q := Option.some.inj (hP.symm.trans hQ.procedure)
  have hbody := hA.bodies d hd P hQ
  rw [← Stmt.loadsOf_primitive_iff hA.holds hQ hbody]
  refine forall₂_congr fun x hx => ⟨?_, ?_⟩
  · rintro ⟨v, ty, -, -, hxty, hprim, -⟩
    obtain ⟨ty', hty'⟩ := Stmt.nodesOf_hasType hbody _ (Stmt.mem_nodesOf_of_loads hx)
    have heq := Designator.HasType.type_eq hty'
    rw [hxty, Except.ok.injEq] at heq
    exact ⟨ty', hty', heq ▸ hprim⟩
  · rintro ⟨ty, hty, hprim⟩
    obtain ⟨-, -, -, -, -, v, hv, -, hinside, -⟩ :=
      hA.inside_variable hd hQ (Stmt.mem_nodesOf_of_loads hx)
    exact ⟨v, ty, hv, hinside, hty.type_eq, hprim, Ty.byteSize_of_not_isAggregate hprim⟩

theorem loads_word_iff_cells : ∃ t P, (buildAndCheck {} cells).answer = .ok t ∧
    checkedCells ∈ (buildAndCheck {} cells).tree.procedures ∧
    t.procedure? checkedCells.name = some P ∧
    ((∀ x ∈ Stmt.loadsOf t checkedCells.body, x.LoadsWord t P.localScope) ↔
      ∀ x ∈ Stmt.nodesOf checkedCells.body, x.PrimitiveOperands) := by
  obtain ⟨⟨t, ht⟩, hd, -⟩ := cells_accepted
  obtain ⟨P, hP⟩ := (Accepted.of_ok ht).declares hd
  exact ⟨t, P, ht, hd, hP.procedure, loads_word_iff {} cells ht hd hP.procedure⟩

section
open Build

/-- A program that compares two arrays. -/
def sameArrays : Program := program [
  procDecl "main" [] [varDecl "x" (arrayType 2 intType), varDecl "y" (arrayType 2 intType)] [
    ifThen (binary (.compare .equ) (var (named "x")) (var (named "y"))) empty]]

/-- The instructions that compare the first words of the arrays. -/
def comparesFirstWords : List Inst :=
  [.alu .add ⟨8⟩ .framePointer (.immediate (-8)), .load ⟨8⟩ ⟨8⟩ 0,
   .alu .add ⟨9⟩ .framePointer (.immediate (-16)), .load ⟨9⟩ ⟨9⟩ 0,
   .branch .ne ⟨8⟩ ⟨9⟩ "L0"]

/-- A program is accepted, loads an array, and its code has the given instructions. -/
def loadsAggregate (p : Program) (insts : List Inst) : Bool :=
  match (buildAndCheck {} p).answer, (compile {} p).answer with
  | .ok t, .ok lines =>
    ((buildAndCheck {} p).tree.procedures.any fun d => (Stmt.loadsOf t d.body).any fun x =>
      x.type.toOption.any Ty.isAggregate) && decide (insts <:+: lines.map Line.inst)
  | _, _ => false

/-- An accepted program that compares two arrays: both are loaded, and the code compares their first
words. -/
theorem exists_aggregate_load : sameArrays.isFresh = true ∧
    ∃ t lines, (buildAndCheck {} sameArrays).answer = .ok t ∧
      (compile {} sameArrays).answer = .ok lines ∧
      (∃ d ∈ (buildAndCheck {} sameArrays).tree.procedures, ∃ x ∈ Stmt.loadsOf t d.body,
        ∃ ty, x.type = .ok ty ∧ ty.isAggregate = true) ∧
      comparesFirstWords <:+: lines.map Line.inst := by
  refine ⟨by decide +kernel, ?_⟩
  have h : loadsAggregate sameArrays comparesFirstWords = true := by decide +kernel
  unfold loadsAggregate at h
  split at h
  · next t lines ht hlines =>
    simp only [Bool.and_eq_true, List.any_eq_true, decide_eq_true_eq] at h
    obtain ⟨⟨d, hd, x, hx, hty⟩, hcode⟩ := h
    cases hxty : x.type with
    | error f =>
      rw [hxty] at hty
      cases hty
    | ok ty =>
      rw [hxty] at hty
      exact ⟨t, lines, ht, hlines, ⟨d, hd, x, hx, ty, hxty, hty⟩, hcode⟩
  · cases h

end

end Spl
