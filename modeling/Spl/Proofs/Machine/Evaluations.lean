import Spl.Proofs.Code.Generation
import Spl.Proofs.Machine.Values
import Spl.Proofs.Typing.Nodes

/-!
# Runs of the code of an evaluation

The code of an expression or designator by itself, as a fragment in which its labels are found. From
any state, it ends with the value or the address in the current register, or it stops, and exactly
for an index out of bounds it stops in the error routine.

* `Designator.indexings`, `Expr.indexings`: the indices that an evaluation evaluates.
* `Designator.locate_index_iff`, `Expr.eval_index_iff`: it traps at an index exactly if one of them
  is out of bounds.
* `Computes`: what a fragment does from a state.
* `Node.generate_computes`: the code of an expression or designator does it.
-/

namespace Spl

open Machine

/-! ## Indices -/

/-- An index that has been evaluated, and the length of the array. -/
structure Indexing where
  index : Word
  length : UInt32

/-- An index is within the bounds, as a signed number. -/
def Indexing.InBounds (x : Indexing) : Prop :=
  0 ≤ x.index.toInt ∧ x.index.toInt < x.length.toNat

/-- The indices that are evaluated after an evaluation: none if it traps. -/
def Trap.after (r : Except Trap Word) (xs : Word → List Indexing) : List Indexing :=
  match r with
  | .ok v => xs v
  | .error _ => []

section

variable (div : Word → Word → Option Word) (A : Activation) (m : Memory)

mutual

/-- The indices that are evaluated for the address of a designator. -/
def Designator.indexings : Designator → List Indexing
  | .named .. => []
  | .element _ array index _ =>
    array.indexings ++ Trap.after (array.locate div A m) fun _ =>
      index.indexings ++ Trap.after (index.eval div A m) fun i =>
        match array.type >>= arrayParts with
        | .ok (length, _) => [⟨i, length⟩]
        | .error _ => []
  | .field _ record _ _ => record.indexings

/-- The indices that are evaluated for the value of an expression. -/
def Expr.indexings : Expr → List Indexing
  | .literal .. => []
  | .unary _ _ operand _ => operand.indexings
  | .binary _ _ left right _ =>
    left.indexings ++ Trap.after (left.eval div A m) fun _ => right.indexings
  | .designator _ target _ => target.indexings

end

end

theorem Activation.addressOf_ne_index (A : Activation) (m : Memory) (name : String) :
    A.addressOf m name ≠ .error .index := by
  unfold addressOf Trap.lift
  cases variableAt A.table A.scope name with
  | error f => simp [Except.mapError, bind, Except.bind]
  | ok v => cases ho : v.offset <;> simp [Except.mapError, bind, Except.bind, ho]

/-- An evaluation traps at an index exactly if one of the indices is out of bounds. -/
def TrapsBeyond {α : Type} (r : Except Trap α) (xs : List Indexing) : Prop :=
  r = .error .index ↔ ∃ x ∈ xs, ¬x.InBounds

namespace TrapsBeyond

variable {α : Type} {r : Except Trap Word} {xs : List Indexing} {f : Word → Except Trap α}

theorem ok {a : α} : TrapsBeyond (.ok a) [] := by simp [TrapsBeyond]

theorem bind {ys : Word → List Indexing} (h : TrapsBeyond r xs)
    (hf : ∀ v, TrapsBeyond (f v) (ys v)) : TrapsBeyond (r.bind f) (xs ++ Trap.after r ys) := by
  unfold TrapsBeyond at h ⊢
  cases r with
  | error e => simpa [Except.bind, Trap.after] using h
  | ok v =>
    simp only [reduceCtorEq, false_iff] at h
    simp only [Except.bind, Trap.after, List.mem_append, or_and_right, exists_or, h, false_or]
    exact hf v

/-- Going on without an index. -/
theorem bind_ok (h : TrapsBeyond r xs) (hf : ∀ v, f v ≠ .error .index) :
    TrapsBeyond (r.bind f) xs := by
  unfold TrapsBeyond at h ⊢
  rw [← h, bind_eq_error_iff]
  simp [hf]

end TrapsBeyond

section

variable {div : Word → Word → Option Word} {E : TypeEnv} {A : Activation} {m : Memory}

mutual

/-- An address traps at an index exactly if one of the indices is out of bounds. -/
theorem Designator.locate_index_iff : ∀ {d : Designator} {ty : Ty}, d.HasType E ty →
    TrapsBeyond (d.locate div A m) (d.indexings div A m)
  | _, _, @Designator.HasType.named _ p name _ _ _ => by
    rw [Designator.locate, Designator.indexings]
    simp [TrapsBeyond, Activation.addressOf_ne_index]
  | _, _, @Designator.HasType.element _ p array index length base ha hi => by
    rw [Designator.locate_element ha.type_eq, Designator.indexings, ha.type_eq]
    refine (Designator.locate_index_iff ha).bind fun x => (Expr.eval_index_iff hi).bind fun i => ?_
    show (_ = _) ↔ ∃ y ∈ [⟨i, length⟩], ¬Indexing.InBounds y
    simp only [List.mem_singleton, exists_eq_left, Indexing.InBounds]
    split <;> simp_all
  | _, _, @Designator.HasType.field _ p record name fields ty hr hf => by
    rw [Designator.locate_field hr.type_eq hf, Designator.indexings]
    exact (Designator.locate_index_iff hr).bind_ok nofun

/-- A value traps at an index exactly if one of the indices is out of bounds. -/
theorem Expr.eval_index_iff : ∀ {e : Expr} {ty : Ty}, e.HasType E ty →
    TrapsBeyond (e.eval div A m) (e.indexings div A m)
  | _, _, .literal => by
    rw [Expr.eval, Expr.indexings]
    exact .ok
  | _, _, @Expr.HasType.unary _ _ .minus _ _ he _ => by
    rw [Expr.eval_minus, Expr.indexings]
    exact (Expr.eval_index_iff he).bind_ok nofun
  | _, _, .arith hl hr => by
    rw [Expr.eval_arith, Expr.indexings]
    refine (Expr.eval_index_iff hl).bind fun x => (Expr.eval_index_iff hr).bind_ok fun y => ?_
    split <;> nofun
  | _, _, .compare hl hr => by
    rw [Expr.eval_compare, Expr.indexings]
    exact (Expr.eval_index_iff hl).bind fun x => (Expr.eval_index_iff hr).bind_ok nofun
  | _, _, .designator hd => by
    rw [Expr.eval_designator, Expr.indexings]
    exact (Designator.locate_index_iff hd).bind_ok nofun

end

end

/-! ## Fragments -/

/-- How a run of the code of an evaluation ends: behind the code with the result in the current
register, in the error routine for an index, or in a division without a result. -/
inductive Ended (s : RegisterStack) (σ : State) (r : Except Trap Word) : Halt → State → Prop
  | finished {σ' : State} : r = .ok (σ'.read s.current) → σ.Keeps s σ' → σ'.memory = σ.memory →
      Ended s σ r .finished σ'
  | index {σ' : State} : r = .error .index → σ'.memory = σ.memory →
      Ended s σ r (.left indexErrorRoutine) σ'
  | undefined {σ' : State} : r = .error .division → σ'.memory = σ.memory →
      Ended s σ r .undefined σ'

/-- What a fragment of code does from a state: it ends, every run of it ends as the result says, and
it stops in the error routine exactly if one of the indices is out of bounds. -/
structure Computes (div : Word → Word → Option Word) (s : RegisterStack) (code : List Line)
    (σ : State) (r : Except Trap Word) (xs : List Indexing) : Prop where
  ends : ∃ n h σ', Runs div code n ⟨code, σ⟩ h σ'
  ended : ∀ n h σ', Runs div code n ⟨code, σ⟩ h σ' → Ended s σ r h σ'
  index_iff : (∃ n σ', Runs div code n ⟨code, σ⟩ (.left indexErrorRoutine) σ') ↔
    ∃ x ∈ xs, ¬x.InBounds

section

variable {div : Word → Word → Option Word} {s : RegisterStack} {code : List Line}
  {σ σ₁ σ₂ : State} {r : Except Trap Word} {xs xs' : List Indexing}

theorem StopsAs.ended {h : Halt} {σ' : State} (hs : StopsAs r σ.memory h σ') :
    Ended s σ r h σ' := by
  obtain ⟨x, hr, hx, hm⟩ := hs
  cases x with
  | index =>
    cases hx
    exact .index hr hm
  | division =>
    cases hx
    exact .undefined hr hm
  | fault f => cases hx

/-- Code that leads to its end computes. -/
theorem Computes.of_leads (hr : TrapsBeyond r xs)
    (hl : Leads div code (Yields s σ σ.memory r []) (StopsAs r σ.memory) ⟨code, σ⟩) :
    Computes div s code σ r xs := by
  have hend : ∀ c, Yields s σ σ.memory r [] c → Ended s σ r .finished c.state := fun c hc =>
    .finished hc.value hc.keeps hc.memory
  have hstep : ∀ c, Yields s σ σ.memory r [] c → step div code c = .halts .finished c.state := by
    rintro ⟨k, σ'⟩ hc
    obtain rfl : k = [] := hc.code
    rfl
  have hl := hl.mono (fun _ hc => hc) fun _ _ hs => StopsAs.ended (s := s) hs
  obtain ⟨n, h, σ', hrun, hended⟩ := hl.exists_runs fun c hc =>
    ⟨0, .finished, c.state, .halt (hstep c hc), hend c hc⟩
  have hall : ∀ n h σ', Runs div code n ⟨code, σ⟩ h σ' → Ended s σ r h σ' := by
    intro n h σ' hrun
    rcases hl.runs hrun with ⟨k, c, -, hc, hrun⟩ | hended
    · obtain ⟨rfl, rfl⟩ := hrun.end_eq (hstep c hc)
      exact hend c hc
    · exact hended
  refine ⟨⟨n, h, σ', hrun⟩, hall, Iff.trans ⟨?_, ?_⟩ hr⟩
  · rintro ⟨n, σ', hrun⟩
    cases hall _ _ _ hrun with
    | index hr _ => exact hr
  · intro hindex
    cases hended with
    | finished hr _ _ => rw [hindex] at hr; cases hr
    | index _ _ => exact ⟨n, σ', hrun⟩
    | undefined hr _ => rw [hindex] at hr; cases hr

/-- Two states from which the result is the same are not told apart. -/
theorem Computes.agree (h₁ : Computes div s code σ₁ r xs) (h₂ : Computes div s code σ₂ r xs')
    {n₁ n₂ : Nat} {e₁ e₂ : Halt} {σ₁' σ₂' : State} (hrun₁ : Runs div code n₁ ⟨code, σ₁⟩ e₁ σ₁')
    (hrun₂ : Runs div code n₂ ⟨code, σ₂⟩ e₂ σ₂') :
    e₁ = e₂ ∧ (e₁ = .finished → σ₁'.read s.current = σ₂'.read s.current) := by
  cases h₁.ended _ _ _ hrun₁ <;> cases h₂.ended _ _ _ hrun₂ <;> simp_all

end

/-! ## Nodes -/

theorem Designator.AddressCode.linked {t : SymbolTable} {a : Addressing} {s : RegisterStack}
    {n : Nat} {d : Designator} {code : List Line} (h : d.AddressCode t a s n code) : Linked code :=
  (h.fragment (T := fun _ => True) ⟨trivial, fun _ _ => trivial⟩).linked

theorem Expr.ValueCode.linked {t : SymbolTable} {a : Addressing} {s : RegisterStack} {n : Nat}
    {e : Expr} {code : List Line} (h : e.ValueCode t a s n code) : Linked code :=
  (h.fragment (T := fun _ => True) ⟨trivial, fun _ _ => trivial⟩).linked

namespace Node

/-- Generates the code of a node: of the value of an expression, or the address of a designator. -/
def generate (t : SymbolTable) (a : Addressing) : Node → Gen Unit
  | .expr e => e.value t a
  | .designator d => d.address t a

section
variable (div : Word → Word → Option Word) (A : Activation) (m : Memory)

/-- What a node is evaluated to. -/
def result : Node → Except Trap Word
  | .expr e => e.eval div A m
  | .designator d => d.locate div A m

/-- The indices that are evaluated for a node. -/
def indexings : Node → List Indexing
  | .expr e => e.indexings div A m
  | .designator d => d.indexings div A m

end

variable {t : SymbolTable} {a : Addressing} {x : Node} {ty : Ty}

/-- The code of a node that has a type computes its result from every state, and leaves the
registers in use as they are. -/
theorem generate_computes (div : Word → Word → Option Word) (hR : Ready t a)
    (hb : a.base.isFree = false) (hx : x.HasType (t.typeEnv a.scope) ty) {g g' : Generator}
    (hg : (x.generate t a).run g = .ok () g') :
    ∃ code, g'.lines.toList = g.lines.toList ++ code ∧ g'.registers = g.registers ∧
      ∀ σ : State, Computes div g.registers code σ
        (x.result div ⟨t, a.scope, σ.read a.base + a.bias⟩ σ.memory)
        (x.indexings div ⟨t, a.scope, σ.read a.base + a.bias⟩ σ.memory) := by
  have hσ (σ : State) : Situated a ⟨t, a.scope, σ.read a.base + a.bias⟩ σ.memory σ := ⟨rfl, rfl⟩
  cases x with
  | expr e =>
    obtain ⟨code, hcode, rfl⟩ := (Expr.value_ends (A := True) hR hx (.inr trivial)).ok hg
    refine ⟨code, by simp [Generator.add], rfl, fun σ => ?_⟩
    have hl : Leads div code _ _ ⟨code ++ [], σ⟩ :=
      hcode.leads hcode.linked hR.fits hb hx (by simp) (hσ σ)
    rw [List.append_nil] at hl
    exact .of_leads (Expr.eval_index_iff hx) hl
  | designator d =>
    obtain ⟨code, hcode, rfl⟩ := (Designator.address_ends (A := True) hR hx (.inr trivial)).ok hg
    refine ⟨code, by simp [Generator.add], rfl, fun σ => ?_⟩
    have hl : Leads div code _ _ ⟨code ++ [], σ⟩ :=
      hcode.leads hcode.linked hR.fits hb hx (by simp) (hσ σ)
    rw [List.append_nil] at hl
    exact .of_leads (Designator.locate_index_iff hx) hl

end Node

end Spl
