import Spl.Proofs.Code.Programs

/-!
# Registers that code takes

The parts of an expression take registers of the bank and give them back. Which registers are asked
for, and at which nodes, depends on the tree only, and so does the number of registers that a
statement needs.

* `Expr.need`, `Designator.need`, `Stmt.need`: the number of registers that are needed.
* `Expr.pushes`, `Designator.pushes`, `Stmt.pushes`: the registers that are asked for, in the order
  in which the code is generated.
* `Stmt.pushes_spare_iff`: none of them is asked for in vain exactly if enough registers are left.
* `Takes`: a step asks for registers, and fails at the first one that is not there.
* `Designator.address_takes`, `Expr.value_takes`, `Stmt.code_takes`: code generation does.
-/

namespace Spl

/-! ## What a tree needs -/

mutual

/-- The registers that the value of an expression needs. -/
def Expr.need : Expr → Nat
  | .literal .. => 1
  | .unary _ _ operand _ => operand.need
  | .binary _ _ left right _ => max left.need (1 + right.need)
  | .designator _ target _ => target.need

/-- The registers that the address of a designator needs. The bound of an array takes a register
above its index. -/
def Designator.need : Designator → Nat
  | .named .. => 1
  | .element _ array index _ => max (max array.need (1 + index.need)) 3
  | .field _ record _ _ => record.need

end

/-- The registers that a list of expressions needs, which are computed one after the other. -/
def Expr.needOf : List Expr → Nat
  | [] => 0
  | e :: es => max e.need (needOf es)

namespace Stmt

mutual

/-- The registers that a statement needs. -/
def need : Stmt → Nat
  | .assign _ target value => max target.need (1 + value.need)
  | .ifElse _ condition thenPart elsePart => max condition.need (max thenPart.need elsePart.need)
  | .whileDo _ condition body => max condition.need body.need
  | .call c => Expr.needOf c.arguments
  | .compound _ statements => needOf statements
  | .empty _ => 0

/-- The registers that a list of statements needs. -/
def needOf : List Stmt → Nat
  | [] => 0
  | s :: ss => max s.need (needOf ss)

end

end Stmt

/-- No statement of a program needs more registers than the bank has. -/
def Program.FitsBank (p : Program) : Prop := ∀ d ∈ p.procedures, ∀ s ∈ d.body, s.need ≤ 16

instance (p : Program) : Decidable p.FitsBank :=
  inferInstanceAs (Decidable (∀ d ∈ p.procedures, ∀ s ∈ d.body, s.need ≤ 16))

/-- A register is asked for at a node, while the register of the given number is the current one. -/
structure Push where
  position : Position
  current : Nat
  deriving DecidableEq

namespace Push

/-- True when there is no register above the current one. -/
def fails (q : Push) : Bool := q.current == Reg.lastFree.number

/-- There is a register above the current one. -/
def Spares (ps : List Push) : Prop := ∀ q ∈ ps, q.current < Reg.lastFree.number

end Push

mutual

/-- The registers that are asked for by the code of an expression that computes into the register of
the given number. -/
def Expr.pushes (r : Nat) : Expr → List Push
  | .literal .. => []
  | .unary _ _ operand _ => operand.pushes r
  | .binary p _ left right _ => left.pushes r ++ ⟨p, r⟩ :: right.pushes (r + 1)
  | .designator _ target _ => target.pushes r

/-- The registers that are asked for by the code of a designator. -/
def Designator.pushes (r : Nat) : Designator → List Push
  | .named .. => []
  | .element p array index _ =>
    array.pushes r ++ ⟨p, r⟩ :: (index.pushes (r + 1) ++ [⟨p, r + 1⟩])
  | .field _ record _ _ => record.pushes r

end

namespace Stmt

mutual

/-- The registers that are asked for by the code of a statement. -/
def pushes (r : Nat) : Stmt → List Push
  | .assign p target value => target.pushes r ++ ⟨p, r⟩ :: value.pushes (r + 1)
  | .ifElse _ condition thenPart elsePart =>
    condition.pushes r ++ (thenPart.pushes r ++ elsePart.pushes r)
  | .whileDo _ condition body => condition.pushes r ++ body.pushes r
  | .call c => c.arguments.flatMap (Expr.pushes r)
  | .compound _ statements => pushesOf r statements
  | .empty _ => []

/-- The registers that are asked for by the code of a list of statements. -/
def pushesOf (r : Nat) : List Stmt → List Push
  | [] => []
  | s :: ss => s.pushes r ++ pushesOf r ss

end

end Stmt

/-- The registers that are asked for by the code of a program. -/
def Program.pushes (p : Program) : List Push :=
  p.procedures.flatMap fun d => Stmt.pushesOf Reg.firstFree.number d.body

/-! ## Enough registers -/

namespace Push

theorem spares_append {ps qs : List Push} : Spares (ps ++ qs) ↔ Spares ps ∧ Spares qs :=
  List.forall_mem_append

theorem spares_cons {p : Position} {r : Nat} {ps : List Push} :
    Spares (⟨p, r⟩ :: ps) ↔ r < 23 ∧ Spares ps :=
  List.forall_mem_cons

theorem spares_nil : Spares [] := List.forall_mem_nil _

end Push

open Push

theorem Stmt.needOf_le_iff {n : Nat} {ss : List Stmt} : needOf ss ≤ n ↔ ∀ s ∈ ss, s.need ≤ n := by
  induction ss with
  | nil => simp [needOf]
  | cons s ss ih => rw [needOf, Nat.max_le, ih, List.forall_mem_cons]

mutual

theorem Expr.need_pos : ∀ e : Expr, 1 ≤ e.need
  | .literal .. => by simp [Expr.need]
  | .unary _ _ operand _ => by simpa [Expr.need] using operand.need_pos
  | .binary .. => by
    rw [Expr.need]
    omega
  | .designator _ target _ => by simpa [Expr.need] using target.need_pos

theorem Designator.need_pos : ∀ d : Designator, 1 ≤ d.need
  | .named .. => by simp [Designator.need]
  | .element .. => by
    rw [Designator.need]
    omega
  | .field _ record _ _ => by simpa [Designator.need] using record.need_pos

end

mutual

/-- No register is asked for in vain exactly if the registers from the current one on suffice. -/
theorem Expr.pushes_spare_iff : ∀ {e : Expr} {r : Nat}, r ≤ 23 →
    (Spares (e.pushes r) ↔ r + e.need ≤ 24)
  | .literal .., r, hr => by
    simp only [Expr.pushes, Expr.need, spares_nil, true_iff]
    omega
  | .unary _ _ operand _, r, hr => by
    rw [Expr.pushes, Expr.need]
    exact Expr.pushes_spare_iff hr
  | .binary _ _ left right _, r, hr => by
    have hpos := right.need_pos
    rw [Expr.pushes, Expr.need, spares_append, spares_cons, Expr.pushes_spare_iff hr]
    by_cases hlt : r < 23
    · rw [Expr.pushes_spare_iff (e := right) (r := r + 1) hlt]
      omega
    · omega
  | .designator _ target _, r, hr => by
    rw [Expr.pushes, Expr.need]
    exact Designator.pushes_spare_iff hr

theorem Designator.pushes_spare_iff : ∀ {d : Designator} {r : Nat}, r ≤ 23 →
    (Spares (d.pushes r) ↔ r + d.need ≤ 24)
  | .named .., r, hr => by
    simp only [Designator.pushes, Designator.need, spares_nil, true_iff]
    omega
  | .element _ array index _, r, hr => by
    have hpos := index.need_pos
    rw [Designator.pushes, Designator.need, spares_append, spares_cons, spares_append, spares_cons,
      Designator.pushes_spare_iff hr]
    by_cases hlt : r < 23
    · rw [Expr.pushes_spare_iff (e := index) (r := r + 1) hlt]
      simp only [spares_nil, and_true]
      omega
    · omega
  | .field _ record _ _, r, hr => by
    rw [Designator.pushes, Designator.need]
    exact Designator.pushes_spare_iff hr

end

theorem Expr.pushesOf_spare_iff {r : Nat} (hr : r ≤ 23) : ∀ {es : List Expr},
    Spares (es.flatMap (Expr.pushes r)) ↔ r + Expr.needOf es ≤ 24
  | [] => by
    simp only [List.flatMap_nil, Expr.needOf, spares_nil, true_iff]
    omega
  | e :: es => by
    rw [List.flatMap_cons, spares_append, Expr.pushes_spare_iff hr, Expr.pushesOf_spare_iff hr,
      Expr.needOf]
    omega

mutual

/-- No register is asked for in vain by a statement exactly if the registers from the current one on
suffice. -/
theorem Stmt.pushes_spare_iff {r : Nat} (hr : r ≤ 23) : ∀ {s : Stmt},
    Spares (s.pushes r) ↔ r + s.need ≤ 24
  | .assign _ target value => by
    have hpos := value.need_pos
    rw [Stmt.pushes, Stmt.need, spares_append, spares_cons, Designator.pushes_spare_iff hr]
    by_cases hlt : r < 23
    · rw [Expr.pushes_spare_iff (e := value) (r := r + 1) hlt]
      omega
    · omega
  | .ifElse .. => by
    rw [Stmt.pushes, Stmt.need, spares_append, spares_append, Expr.pushes_spare_iff hr,
      Stmt.pushes_spare_iff hr, Stmt.pushes_spare_iff hr]
    omega
  | .whileDo .. => by
    rw [Stmt.pushes, Stmt.need, spares_append, Expr.pushes_spare_iff hr, Stmt.pushes_spare_iff hr]
    omega
  | .call c => by
    rw [Stmt.pushes, Stmt.need, Expr.pushesOf_spare_iff hr]
  | .compound .. => by
    rw [Stmt.pushes, Stmt.need]
    exact Stmt.pushesOf_spare_iff hr
  | .empty _ => by
    simp only [Stmt.pushes, Stmt.need, spares_nil, true_iff]
    omega

theorem Stmt.pushesOf_spare_iff {r : Nat} (hr : r ≤ 23) : ∀ {ss : List Stmt},
    Spares (Stmt.pushesOf r ss) ↔ r + Stmt.needOf ss ≤ 24
  | [] => by
    simp only [Stmt.pushesOf, Stmt.needOf, spares_nil, true_iff]
    omega
  | s :: ss => by
    rw [Stmt.pushesOf, Stmt.needOf, spares_append, Stmt.pushes_spare_iff hr,
      Stmt.pushesOf_spare_iff hr]
    omega

end

/-! ## Steps that take registers -/

/-- A failure of code generation that asks for the given registers: it is a fault, or it reports the
first register that is not there. -/
def Refuses (ps : List Push) : Failure CodegenError → Prop
  | .error e => ∃ q, ps.find? Push.fails = some q ∧ e = ⟨q.position, .registersExhausted⟩
  | .fault _ => True

/-- From the state `g` on, the step asks for the given registers. It succeeds with all of them there
and the registers `s` in use, or it fails at the first one that is not there, or it ends in a
fault. -/
def Takes {α : Type} (ps : List Push) (s : RegisterStack) (x : Gen α) (g : Generator) : Prop :=
  Ends (Refuses ps) (fun _ g' => g'.registers = s ∧ Spares ps) x g

/-- The step asks for no register, and reports no error. -/
def Calm {α : Type} (x : Gen α) : Prop := ∀ g, Takes [] g.registers x g

theorem Push.find?_fails_of_spares {ps : List Push} (h : Spares ps) : ps.find? fails = none := by
  rw [List.find?_eq_none]
  intro q hq hf
  exact absurd (beq_iff_eq.1 hf) (Nat.ne_of_lt (h q hq))

theorem Push.not_spares_of_find? {ps : List Push} {q : Push} (h : ps.find? fails = some q) :
    ¬Spares ps := by
  intro hspares
  rw [find?_fails_of_spares hspares] at h
  cases h

namespace Refuses

variable {ps qs : List Push} {e : Failure CodegenError}

theorem append_left (h : Refuses ps e) : Refuses (ps ++ qs) e := by
  cases e with
  | fault f => trivial
  | error e =>
    obtain ⟨q, hq, he⟩ := h
    exact ⟨q, by rw [List.find?_append, hq, Option.some_or], he⟩

theorem append_right (hp : Spares ps) (h : Refuses qs e) : Refuses (ps ++ qs) e := by
  cases e with
  | fault f => trivial
  | error e =>
    obtain ⟨q, hq, he⟩ := h
    exact ⟨q, by rw [List.find?_append, find?_fails_of_spares hp, Option.none_or, hq], he⟩

end Refuses

namespace RegisterStack

variable {s s' : RegisterStack}

theorem number_current_of_push? (h : s.push? = some s') :
    s'.current.number = s.current.number + 1 := by
  unfold push? at h
  split at h
  · cases h
    rfl
  · cases h

/-- A register can be taken exactly if the last one of the bank is not in use. -/
theorem push?_eq_none_iff : s.push? = none ↔ s.current.number = Reg.lastFree.number := by
  have hs := s.above_lt
  simp only [push?, current, Reg.firstFree, Reg.lastFree]
  split <;> simp <;> omega

theorem current_lt_lastFree (h : s.push? = some s') : s.current.number < Reg.lastFree.number := by
  have hs' := s'.above_lt
  have hn := number_current_of_push? h
  simp only [current, Reg.firstFree, Reg.lastFree] at hn ⊢
  omega

end RegisterStack

section

variable {α β : Type} {ps qs : List Push} {s s' s'' : RegisterStack} {g : Generator} {x : Gen α}
  {f : α → Gen β}

namespace Takes

theorem bind (h : Takes ps s x g) (hf : ∀ a g', g'.registers = s → Takes qs s' (f a) g') :
    Takes (ps ++ qs) s' (x >>= f) g := by
  refine Ends.bind (h.imp (fun _ => Refuses.append_left) fun _ _ hx => hx) ?_
  intro a g' hx
  exact (hf a g' hx.1).imp (fun _ => Refuses.append_right hx.2) fun _ _ hy =>
    ⟨hy.1, spares_append.2 ⟨hx.2, hy.2⟩⟩

theorem fault {e : Fault} : Takes ps s (Gen.fault e : Gen α) g := trivial

/-- A register is asked for. -/
theorem push_bind {p : Position} {f : Reg → Gen β} (hg : g.registers = s)
    (h : ∀ s₁ r g', s.push? = some s₁ → g'.registers = s₁ → Takes ps s' (f r) g') :
    Takes (⟨p, s.current.number⟩ :: ps) s' (push p >>= f) g := by
  cases hs : s.push? with
  | some s₁ =>
    have hpush : Takes [⟨p, s.current.number⟩] s₁ (push p) g := by
      unfold push
      refine Ends.get_bind ?_
      rw [hg, hs]
      exact ⟨rfl, spares_cons.2 ⟨RegisterStack.current_lt_lastFree hs, spares_nil⟩⟩
    exact hpush.bind fun r g' hg' => h s₁ r g' hs hg'
  | none =>
    unfold push
    rw [bind_assoc]
    refine Ends.get_bind ?_
    rw [hg, hs]
    have hfails : Push.fails ⟨p, s.current.number⟩ = true :=
      beq_iff_eq.2 (RegisterStack.push?_eq_none_iff.1 hs)
    exact ⟨⟨p, s.current.number⟩, by rw [List.find?_cons, hfails], rfl⟩

/-- A register that was taken is given back. -/
theorem pop (hs : s.push? = some s') (hg : g.registers = s') : Takes [] s pop g := by
  unfold Spl.pop
  refine Ends.get_bind ?_
  rw [hg]
  exact Ends.lift_gen_bind (RegisterStack.pop_of_push? hs) ⟨rfl, spares_nil⟩

theorem pop_bind {f : Unit → Gen β} (hs : s.push? = some s') (hg : g.registers = s')
    (h : ∀ g', g'.registers = s → Takes ps s'' (f ()) g') : Takes ps s'' (Spl.pop >>= f) g :=
  (Takes.pop hs hg).bind fun _ g' hg' => h g' hg'

end Takes

/-! ### Steps that take none -/

namespace Calm

theorem takes (h : Calm x) (hg : g.registers = s) : Takes [] s x g := hg ▸ h g

theorem bind (h : Calm x) (hf : ∀ a, Calm (f a)) : Calm (x >>= f) := fun g =>
  (h g).bind fun a _ hg' => (hf a).takes hg'

theorem pure {a : α} : Calm (pure a : Gen α) := fun _ => ⟨rfl, spares_nil⟩

theorem fault {e : Fault} : Calm (Gen.fault e : Gen α) := fun _ => .fault

theorem lift {e : Except Fault α} : Calm (liftM e : Gen α) := by
  cases e with
  | error e => exact fault
  | ok a => exact pure

theorem current : Calm current := fun _ => ⟨rfl, spares_nil⟩

theorem emit {i : Inst} : Calm (emit i) := fun _ => ⟨rfl, spares_nil⟩

theorem emitNoted {i : Inst} {comment : String} : Calm (emitNoted i comment) := fun _ =>
  ⟨rfl, spares_nil⟩

theorem newLabel : Calm newLabel := by
  intro g
  unfold Spl.newLabel
  refine Ends.get_bind ?_
  split
  · exact ⟨rfl, spares_nil⟩
  · trivial

end Calm

namespace Takes

/-- Going on after a step that takes no register. -/
theorem after (hx : Calm x) (hg : g.registers = s)
    (hf : ∀ a g', g'.registers = s → Takes ps s' (f a) g') : Takes ps s' (x >>= f) g :=
  (hx.takes hg).bind hf

/-- Going on with a step that takes no register. -/
theorem andCalm (h : Takes ps s x g) (hf : ∀ a, Calm (f a)) : Takes ps s (x >>= f) g := by
  rw [← List.append_nil ps]
  exact h.bind fun a _ hg' => (hf a).takes hg'

/-- Two operands, the second one in the next register, and an instruction for them. -/
theorem operands {x y : Gen Unit} {p : Position} {inst : Reg → Inst} (hx : Takes ps s x g)
    (hy : ∀ s₁ g₁, s₁.current.number = s.current.number + 1 → g₁.registers = s₁ →
      Takes qs s₁ y g₁) :
    Takes (ps ++ ⟨p, s.current.number⟩ :: qs) s
      (do x; let r ← push p; y; Spl.pop; Spl.emit (inst r)) g := by
  refine hx.bind fun _ g hg => .push_bind hg fun s₁ r g hs₁ hg => ?_
  rw [← List.append_nil qs]
  exact (hy s₁ g (RegisterStack.number_current_of_push? hs₁) hg).bind fun _ g hg =>
    .pop_bind hs₁ hg fun g hg => Calm.emit.takes hg

end Takes

end

/-! ## Bodies -/

section

variable {t : SymbolTable} {a : Addressing} {g : Generator} {s : RegisterStack}

mutual

theorem Designator.address_takes : ∀ (d : Designator) {s : RegisterStack} {g : Generator},
    g.registers = s → Takes (d.pushes s.current.number) s (d.address t a) g
  | .named p name slot, s, g, hg => by
    rw [Designator.pushes]
    unfold Designator.address
    refine Calm.takes (.bind .current fun r => .bind .lift fun v => ?_) hg
    cases v.offset with
    | none => exact .fault
    | some offset =>
      refine .bind .lift fun distance => .bind .emit fun _ => ?_
      split
      · exact .emit
      · exact .pure
  | .element p array index slot, s, g, hg => by
    rw [Designator.pushes]
    unfold Designator.address
    refine .after .current hg fun r g hg => .after .lift hg fun ty g hg => ?_
    refine .after .lift hg fun parts g hg => (array.address_takes hg).bind fun _ g hg => ?_
    refine .push_bind hg fun s' i g hs' hg => ?_
    rw [← RegisterStack.number_current_of_push? hs']
    refine (index.value_takes hg).bind fun _ g hg => .push_bind hg fun s'' bound g hs'' hg => ?_
    refine .after .emit hg fun _ g hg => .after .emit hg fun _ g hg => ?_
    refine .pop_bind hs'' hg fun g hg => .after .lift hg fun size g hg => ?_
    exact .after .emit hg fun _ g hg => .pop_bind hs' hg fun g hg => Calm.emit.takes hg
  | .field p record name slot, s, g, hg => by
    rw [Designator.pushes]
    unfold Designator.address
    refine .after .current hg fun r g hg => .after .lift hg fun ty g hg => ?_
    refine .after .lift hg fun offset g hg => (record.address_takes hg).andCalm fun _ => ?_
    split
    · exact .emit
    · exact .pure

theorem Expr.value_takes : ∀ (e : Expr) {s : RegisterStack} {g : Generator},
    g.registers = s → Takes (e.pushes s.current.number) s (e.value t a) g
  | .literal p value slot, s, g, hg => by
    rw [Expr.pushes]
    unfold Expr.value
    exact Calm.takes (.bind .current fun r => .emit) hg
  | .unary p .minus operand slot, s, g, hg => by
    rw [Expr.pushes]
    unfold Expr.value
    exact .after .current hg fun r g hg => (operand.value_takes hg).andCalm fun _ => .emit
  | .binary p (.arith op) left right slot, s, g, hg => by
    rw [Expr.pushes]
    unfold Expr.value
    exact .after .current hg fun r g hg => .operands (left.value_takes hg)
      fun s₁ g hn hg => hn ▸ right.value_takes hg
  | .binary p (.compare op) left right slot, s, g, hg => by
    rw [Expr.pushes]
    unfold Expr.value branchUnlessHolds
    refine .after .current hg fun r g hg => .after .newLabel hg fun l g hg => ?_
    refine .after .newLabel hg fun l' g hg => Takes.andCalm ?_ fun _ => ?_
    · exact .after .current hg fun r g hg => .operands (left.value_takes hg)
        fun s₁ g hn hg => hn ▸ right.value_takes hg
    · exact .bind .emit fun _ => .bind .emit fun _ => .bind .emit fun _ =>
        .bind .emit fun _ => .emit
  | .designator p target slot, s, g, hg => by
    rw [Expr.pushes]
    unfold Expr.value
    exact .after .current hg fun r g hg => (target.address_takes hg).andCalm fun _ => .emit

end

theorem Expr.branchUnless_takes (e : Expr) (label : String) (hg : g.registers = s) :
    Takes (e.pushes s.current.number) s (e.branchUnless t a label) g := by
  cases hc : e.isCompare with
  | false =>
    rw [branchUnless_of_not_isCompare hc]
    exact .after .current hg fun r g hg => (e.value_takes hg).andCalm fun _ => .emit
  | true =>
    cases e with
    | binary p op left right slot =>
      cases op with
      | arith op => cases hc
      | compare op =>
        rw [Expr.pushes]
        unfold branchUnless branchUnlessHolds
        exact .after .current hg fun r g hg => .operands (left.value_takes hg)
          fun s₁ g hn hg => hn ▸ right.value_takes hg
    | literal | unary | designator => cases hc

theorem Expr.argument_takes (e : Expr) {c : Call} {number : Nat} {v : Variable}
    (hg : g.registers = s) :
    Takes (e.pushes s.current.number) s (e.argument t a c number v) g := by
  unfold argument
  split
  · cases e with
    | designator p target slot =>
      rw [Expr.pushes]
      exact target.address_takes hg
    | literal | unary | binary => exact .fault
  · exact e.value_takes hg

theorem Call.storeArguments_takes {c : Call} : ∀ {es : List Expr} {vs : List Variable}
    {index : Nat} {g : Generator}, es.length = vs.length → g.registers = s →
    Takes (es.flatMap (Expr.pushes s.current.number)) s (c.storeArguments t a index es vs) g
  | [], [], _, _, _, hg => Calm.pure.takes hg
  | e :: es, v :: vs, index, g, hlen, hg => by
    unfold storeArguments
    rw [List.flatMap_cons]
    refine (e.argument_takes hg).bind fun _ g hg => ?_
    cases v.offset with
    | none => exact .fault
    | some offset =>
      exact .after .current hg fun r g hg => .after .emitNoted hg fun _ g hg =>
        storeArguments_takes (Nat.succ.inj hlen) hg

/-- Each call has as many arguments as the procedure has parameters. -/
def Call.Complete (t : SymbolTable) (c : Call) : Prop :=
  ∀ Q, t.procedure? c.procedure = some Q → c.arguments.length = Q.parameters.length

mutual

theorem Stmt.code_takes : ∀ (st : Stmt) {g : Generator}, (∀ c ∈ st.calls, c.Complete t) →
    g.registers = s → Takes (st.pushes s.current.number) s (st.code t a) g
  | .assign p target value, g, _, hg => by
    rw [Stmt.pushes]
    unfold Stmt.code
    refine .after .current hg fun r g hg => (target.address_takes hg).bind fun _ g hg => ?_
    refine .push_bind hg fun s' r' g hs' hg => ?_
    rw [← RegisterStack.number_current_of_push? hs', ← List.append_nil (value.pushes _)]
    exact (value.value_takes hg).bind fun _ g hg => .after .emit hg fun _ g hg => .pop hs' hg
  | .ifElse p condition s₁ s₂, g, hcalls, hg => by
    rw [Stmt.calls, List.forall_mem_append] at hcalls
    rw [Stmt.pushes]
    unfold Stmt.code
    split
    · next hempty =>
      have hnil : s₂.pushes s.current.number = [] := by
        cases s₂ with
        | empty => rw [Stmt.pushes]
        | _ => cases hempty
      rw [hnil, List.append_nil]
      exact .after .newLabel hg fun l g hg => (condition.branchUnless_takes l hg).bind
        fun _ g hg => (Stmt.code_takes s₁ hcalls.1 hg).andCalm fun _ => .emit
    · refine .after .newLabel hg fun l g hg => (condition.branchUnless_takes l hg).bind
        fun _ g hg => (Stmt.code_takes s₁ hcalls.1 hg).bind fun _ g hg => ?_
      exact .after .newLabel hg fun l' g hg => .after .emit hg fun _ g hg =>
        .after .emit hg fun _ g hg => (Stmt.code_takes s₂ hcalls.2 hg).andCalm fun _ => .emit
  | .whileDo p condition body, g, hcalls, hg => by
    rw [Stmt.calls] at hcalls
    rw [Stmt.pushes]
    unfold Stmt.code
    refine .after .newLabel hg fun l g hg => .after .newLabel hg fun l' g hg => ?_
    exact .after .emit hg fun _ g hg => (condition.branchUnless_takes l' hg).bind fun _ g hg =>
      (Stmt.code_takes body hcalls hg).andCalm fun _ => .bind .emit fun _ => .emit
  | .call c, g, hcalls, hg => by
    rw [Stmt.calls, List.forall_mem_singleton] at hcalls
    rw [Stmt.pushes]
    unfold Stmt.code Call.code
    cases hQ : t.procedure? c.procedure with
    | none => exact .fault
    | some Q => exact (Call.storeArguments_takes (hcalls Q hQ) hg).andCalm fun _ => .emit
  | .compound p ss, g, hcalls, hg => by
    rw [Stmt.calls] at hcalls
    rw [Stmt.pushes]
    unfold Stmt.code
    exact Stmt.codeOf_takes ss hcalls hg
  | .empty p, g, _, hg => by
    rw [Stmt.pushes]
    unfold Stmt.code
    exact Calm.pure.takes hg

theorem Stmt.codeOf_takes : ∀ (ss : List Stmt) {g : Generator},
    (∀ c ∈ Stmt.callsOf ss, c.Complete t) → g.registers = s →
    Takes (Stmt.pushesOf s.current.number ss) s (Stmt.codeOf t a ss) g
  | [], g, _, hg => by
    rw [Stmt.pushesOf]
    unfold Stmt.codeOf
    exact Calm.pure.takes hg
  | st :: ss, g, hcalls, hg => by
    rw [Stmt.callsOf, List.forall_mem_append] at hcalls
    rw [Stmt.pushesOf]
    unfold Stmt.codeOf
    exact (Stmt.code_takes st hcalls.1 hg).bind fun _ g hg => Stmt.codeOf_takes ss hcalls.2 hg

end

end

/-! ## Programs -/

section

variable {t : SymbolTable} {P : Procedure} {size : Word} {d : ProcDecl} {g : Generator}
  {s : RegisterStack} {p : Program} {leaves : Bool}

theorem enterFrame_calm : Calm (enterFrame P size) := by
  unfold enterFrame takeFrame
  split
  · exact .bind .emitNoted fun _ => .pure
  · exact .bind .lift fun offsets => .bind .emitNoted fun _ => .bind .emitNoted fun _ =>
      .bind .emitNoted fun _ => .bind .emitNoted fun _ => .pure

theorem leaveFrame_calm : Calm (leaveFrame P size) := by
  unfold leaveFrame releaseFrame
  split
  · exact .bind .emitNoted fun _ => .emitNoted
  · exact .bind .lift fun offsets => .bind .emitNoted fun _ => .bind .emitNoted fun _ =>
      .bind .emitNoted fun _ => .emitNoted

theorem importNames_calm : ∀ {names : List String}, Calm (importNames names)
  | [] => .pure
  | _ :: _ => .bind .emit fun _ => importNames_calm

theorem prologue_calm : Calm prologue :=
  .bind importNames_calm fun _ => .bind .emit fun _ => .bind .emit fun _ =>
    .bind .emit fun _ => .emit

/-- The calls of an accepted program are complete. -/
theorem Allocated.complete (h : Allocated leaves t p) (hd : d ∈ p.procedures) :
    ∀ c ∈ Stmt.callsOf d.body, c.Complete t := by
  intro c hc Q hQ
  obtain ⟨P, hP, -⟩ := h.placed d hd
  obtain ⟨st, hst, hc⟩ := Stmt.mem_callsOf.1 hc
  obtain ⟨Q', hQ', hlen⟩ := ((h.accepted.bodies d hd P hP st hst).calls c hc).procedure? hP
  rw [hQ, Option.some.injEq] at hQ'
  rw [hlen, hQ']

theorem ProcDecl.code_takes (h : Allocated leaves t p) (hd : d ∈ p.procedures)
    (hg : g.registers = s) : Takes (Stmt.pushesOf s.current.number d.body) s (d.code t) g := by
  obtain ⟨P, hP, hp⟩ := h.placed d hd
  unfold ProcDecl.code
  rw [hP.procedure]
  rcases hp.frameSize_cases hP with ⟨size, hsize, -⟩ | ⟨hsize, -⟩
  · refine Ends.lift_gen_bind hsize ?_
    exact Takes.after .emit hg fun _ g hg => .after .emit hg fun _ g hg =>
      .after .emit hg fun _ g hg => .after enterFrame_calm hg fun a g hg =>
        (Stmt.codeOf_takes d.body (h.complete hd) hg).andCalm fun _ => leaveFrame_calm
  · dsimp only
    rw [hsize]
    trivial

theorem codeOfProcedures_takes (h : Allocated leaves t p) : ∀ {ds : List ProcDecl}
    {g : Generator}, (∀ d ∈ ds, d ∈ p.procedures) → g.registers = s →
    Takes (ds.flatMap fun d => Stmt.pushesOf s.current.number d.body) s (codeOfProcedures t ds) g
  | [], _, _, hg => Calm.pure.takes hg
  | d :: ds, _, hds, hg => by
    rw [List.flatMap_cons]
    unfold codeOfProcedures
    exact (ProcDecl.code_takes h (hds d (.head _)) hg).bind fun _ g hg =>
      codeOfProcedures_takes h (fun d' hd' => hds d' (.tail _ hd')) hg

theorem Program.code_takes (h : Allocated leaves t p) : Takes p.pushes {} (p.code t) {} := by
  unfold Program.code
  exact .after prologue_calm rfl fun _ g hg =>
    codeOfProcedures_takes h (fun _ hd => hd) hg

/-- Generating a module asks for the registers of its program, and reports the first one that is not
there. -/
theorem generate_takes (h : Allocated leaves t p) :
    match generate t p with
    | .ok _ => Spares p.pushes
    | .error e => Refuses p.pushes e := by
  have htakes := Program.code_takes h
  unfold generate
  unfold Takes Ends at htakes
  have hrun : (p.code t).run {} = p.code t {} := rfl
  rw [hrun]
  cases hg : p.code t {} with
  | ok _ g' =>
    rw [hg] at htakes
    exact htakes.2
  | error e g' =>
    rw [hg] at htakes
    exact htakes

/-- No register is asked for in vain by a program exactly if its statements fit the bank. -/
theorem Program.pushes_spare_iff : Spares p.pushes ↔ p.FitsBank := by
  have hbodies : Spares p.pushes ↔
      ∀ d ∈ p.procedures, Spares (Stmt.pushesOf Reg.firstFree.number d.body) :=
    List.forall_mem_flatMap
  have hfirst : Reg.firstFree.number ≤ 23 := by decide
  rw [hbodies, Program.FitsBank]
  refine forall₂_congr fun d _ => ?_
  rw [Stmt.pushesOf_spare_iff hfirst, ← Stmt.needOf_le_iff]
  show 8 + Stmt.needOf d.body ≤ 8 + 16 ↔ _
  exact Nat.add_le_add_iff_left

end

end Spl
