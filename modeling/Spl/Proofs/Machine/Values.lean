import Spl.Proofs.Semantics
import Spl.Proofs.Typing.Judgement

/-!
# Runs of the code of expressions

The code of an expression or designator leads to the code behind it, with the value or the address
in the current register and the registers below as they were, or it stops as the evaluation does.

* `State.Keeps`: the registers that the code of a form leaves alone.
* `Linked`: code in which labels are found.
* `Designator.AddressCode.leads`, `Expr.ValueCode.leads`: designators and expressions.
* `Expr.BranchCode.leads`: conditions.
-/

namespace Spl

open Machine

/-! ## Operators -/

theorem Comparison.holds_negate (op : Comparison) (a b : Word) :
    op.negate.cond.holds a b = !op.holds a b := by
  cases op with
  | equ => rfl
  | neq => exact (Bool.not_not _).symm
  | lst | lse | grt | gre =>
    simp only [negate, cond, Cond.holds, holds, ← decide_not, Int.not_lt, Int.not_le]

theorem ArithOp.apply_aluOp (div : Word → Word → Option Word) (op : ArithOp) :
    op.aluOp.apply div = op.apply div := by
  cases op <;> rfl

/-- An index is out of bounds exactly if it is as an unsigned number. -/
theorem holds_geu_iff {length : UInt32} (hl : length.toNat ≤ Word.maxNat) (i : Word) :
    Cond.geu.holds i length.toInt32 = true ↔ ¬(0 ≤ i.toInt ∧ i.toInt < length.toNat) := by
  have hs : i.toInt = i.toBitVec.toInt := rfl
  have hu : i.toUInt32.toNat = i.toBitVec.toNat := rfl
  have hi := i.toBitVec.isLt
  unfold Word.maxNat at hl
  simp only [Cond.holds, UInt32.toUInt32_toInt32, decide_eq_true_eq, UInt32.le_iff_toNat_le, hs, hu,
    BitVec.toInt_eq_toNat_cond]
  split <;> omega

/-! ## Registers -/

namespace RegisterStack

/-- A register that is not taken by a form whose code computes into the current register. -/
def Spares (s : RegisterStack) (r : Reg) : Prop :=
  r.isFree = false ∨ r.number < s.current.number

variable {s s' : RegisterStack} {r : Reg}

theorem current_ne_zero (s : RegisterStack) : s.current ≠ .zero := by
  intro h
  have hn := congrArg Reg.number h
  simp [current, Reg.zero, Reg.firstFree] at hn

theorem Spares.ne_current (h : s.Spares r) : r ≠ s.current := by
  intro h
  subst h
  rcases h with h | h
  · rw [s.current_isFree] at h
    cases h
  · exact Nat.lt_irrefl _ h

theorem current_lt_of_push? (h : s.push? = some s') : s.current.number < s'.current.number := by
  unfold push? at h
  split at h
  · injection h with h
    subst h
    exact Nat.lt_succ_self _
  · cases h

theorem Spares.push? (h : s.Spares r) (hs : s.push? = some s') : s'.Spares r :=
  h.imp_right fun hr => Nat.lt_trans hr (current_lt_of_push? hs)

theorem spares_current (hs : s.push? = some s') : s'.Spares s.current :=
  .inr (current_lt_of_push? hs)

end RegisterStack

namespace Machine.State

/-- The registers that are spared are the same in both states. -/
def Keeps (s : RegisterStack) (σ σ' : State) : Prop := ∀ r, s.Spares r → σ'.read r = σ.read r

variable {s s' : RegisterStack} {σ σ' σ'' : State}

theorem Keeps.refl (s : RegisterStack) (σ : State) : σ.Keeps s σ := fun _ _ => rfl

theorem Keeps.trans (h : σ.Keeps s σ') (h' : σ'.Keeps s σ'') : σ.Keeps s σ'' :=
  fun r hr => (h' r hr).trans (h r hr)

theorem Keeps.of_push? (h : σ.Keeps s' σ') (hs : s.push? = some s') : σ.Keeps s σ' :=
  fun r hr => h r (hr.push? hs)

theorem read_write_of_spares {r : Reg} {v : Word} (h : s.Spares r) :
    (σ.write s.current v).read r = σ.read r := read_write_of_ne h.ne_current

theorem keeps_write (σ : State) (v : Word) : σ.Keeps s (σ.write s.current v) :=
  fun _ hr => read_write_of_spares hr

theorem Keeps.write (h : σ.Keeps s σ') (v : Word) : σ.Keeps s (σ'.write s.current v) :=
  h.trans (keeps_write σ' v)

end Machine.State

/-! ## Code in which labels are found -/

/-- No label is defined twice, and the error routine is elsewhere. -/
structure Linked (program : List Line) : Prop where
  nodup : (labelsIn program).Nodup
  indexError : indexErrorRoutine ∉ labelsIn program

/-- The labels of a fragment whose labels are drawn from a range are found in it. -/
theorem Fragment.linked {T : String → Prop} {n k : Nat} {code : List Line}
    (h : Fragment T (drawn n k) code) : Linked code := by
  refine ⟨h.labels.nodup_iff.2 (nodup_drawn n k), fun hl => ?_⟩
  obtain ⟨i, -, -, hi⟩ := mem_drawn.1 (h.labels.mem_iff.1 hl)
  exact labelName_ne (by decide) i hi

/-- How the machine stops in a trap. -/
def Trap.halt? : Trap → Option Halt
  | .index => some (.left indexErrorRoutine)
  | .division => some .undefined
  | .fault _ => none

/-- A run that stops as an evaluation does, and leaves the memory as it is. -/
def StopsAs (r : Except Trap Word) (m : Memory) (h : Halt) (σ : State) : Prop :=
  ∃ x, r = .error x ∧ x.halt? = some h ∧ σ.memory = m

/-- The machine is about to execute the code of a body: the memory is the given one, and the
variables are where the code looks for them. -/
structure Situated (a : Addressing) (A : Activation) (m : Memory) (σ : State) : Prop where
  memory : σ.memory = m
  framePointer : σ.read a.base + a.bias = A.framePointer

/-- An evaluation to a value has led to the code `k`: the value is in the current register, and
nothing has changed that is spared. -/
structure Yields (s : RegisterStack) (σ : State) (m : Memory) (r : Except Trap Word)
    (k : List Line) (c : Config) : Prop where
  code : c.code = k
  memory : c.state.memory = m
  keeps : σ.Keeps s c.state
  value : r = .ok (c.state.read s.current)

section

variable {div : Word → Word → Option Word} {t : SymbolTable} {a : Addressing} {fp : Word}
  {m : Memory} {program : List Line} {s s' : RegisterStack} {σ σ' : State}

theorem Situated.keeps {A : Activation} {m' : Memory} (hσ : Situated a A m σ)
    (hb : a.base.isFree = false) (hk : σ.Keeps s σ') (hm : σ'.memory = m') : Situated a A m' σ' :=
  ⟨hm, by rw [hk _ (.inl hb)]; exact hσ.framePointer⟩

theorem Yields.write {r : Except Trap Word} {v : Word} {k : List Line} (hk : σ.Keeps s σ')
    (hm : σ'.memory = m) (hr : r = .ok v) : Yields s σ m r k ⟨k, σ'.write s.current v⟩ :=
  ⟨rfl, hm, hk.write v, by rw [State.read_write_self s.current_ne_zero]; exact hr⟩

theorem Yields.of_keeps {r : Except Trap Word} {k : List Line} {c : Config}
    (h : Yields s σ' m r k c) (hk : σ.Keeps s σ') : Yields s σ m r k c :=
  ⟨h.code, h.memory, hk.trans h.keeps, h.value⟩

namespace Machine.Leads

variable {Q : Except Trap Word → Config → Prop} {r : Except Trap Word} {k : List Line} {c : Config}

/-- After an evaluation on whose value `f` goes on. -/
theorem evaluate {f : Word → Except Trap Word}
    (hl : Leads div program (Yields s σ m r k) (StopsAs r m) c)
    (h : ∀ v σ', σ'.memory = m → σ.Keeps s σ' → σ'.read s.current = v →
      Leads div program (Q (f v)) (StopsAs (f v) m) ⟨k, σ'⟩) :
    Leads div program (Q (r.bind f)) (StopsAs (r.bind f) m) c := by
  refine hl.bind ?_ ?_
  · intro c hc
    obtain ⟨_, σ'⟩ := c
    obtain ⟨rfl, hm, hk, rfl⟩ := hc
    exact h _ σ' hm hk rfl
  · intro h σ hs
    obtain ⟨x, rfl, hx⟩ := hs
    exact ⟨x, rfl, hx⟩

/-- After an evaluation on whose value another one goes on. -/
theorem andThen {s₀ : RegisterStack} {σ₀ : State} {k₀ : List Line} {f : Word → Except Trap Word}
    (hl : Leads div program (Yields s σ m r k) (StopsAs r m) c)
    (h : ∀ v σ', σ'.memory = m → σ.Keeps s σ' → σ'.read s.current = v →
      Leads div program (Yields s₀ σ₀ m (f v) k₀) (StopsAs (f v) m) ⟨k, σ'⟩) :
    Leads div program (Yields s₀ σ₀ m (r.bind f) k₀) (StopsAs (r.bind f) m) c :=
  hl.evaluate (Q := fun r => Yields s₀ σ₀ m r k₀) h

/-- After the evaluation of two operands, the second one into the next register. -/
theorem operands {r' : Except Trap Word} {k' : List Line} {f : Word → Word → Except Trap Word}
    (hs : s.push? = some s') (hl : Leads div program (Yields s σ m r k) (StopsAs r m) c)
    (hr : ∀ σ₁, σ₁.memory = m → σ.Keeps s σ₁ →
      Leads div program (Yields s' σ₁ m r' k') (StopsAs r' m) ⟨k, σ₁⟩)
    (h : ∀ x y σ₂, σ₂.memory = m → σ.Keeps s σ₂ → σ₂.read s.current = x →
      σ₂.read s'.current = y → Leads div program (Q (f x y)) (StopsAs (f x y) m) ⟨k', σ₂⟩) :
    Leads div program (Q (r.bind fun x => r'.bind fun y => f x y))
      (StopsAs (r.bind fun x => r'.bind fun y => f x y) m) c := by
  refine hl.evaluate fun x σ₁ hm₁ hk₁ hx => ?_
  refine (hr σ₁ hm₁ hk₁).evaluate fun y σ₂ hm₂ hk₂ hy => ?_
  refine h x y σ₂ hm₂ (hk₁.trans (hk₂.of_push? hs)) ?_ hy
  rw [hk₂ _ (RegisterStack.spares_current hs), hx]

/-- The check of an index, and the address of the element. -/
theorem element (hL : Linked program) {s'' : RegisterStack} {length : UInt32} {size x i : Word}
    (hs : s.push? = some s') (hs' : s'.push? = some s'') (hlength : length.toNat ≤ Word.maxNat)
    (hm : σ.memory = m) (hx : σ.read s.current = x) (hi : σ.read s'.current = i) :
    let r := if 0 ≤ i.toInt ∧ i.toInt < length.toNat then .ok (x + i * size) else .error .index
    Leads div program (Yields s σ m r k) (StopsAs r m)
      ⟨plain (.alu .add s''.current .zero (.immediate length.toInt32)) ::
        plain (.branch .geu s'.current s''.current indexErrorRoutine) ::
        plain (.alu .mul s'.current s'.current (.immediate size)) ::
        plain (.alu .add s.current s.current (.register s'.current)) :: k, σ⟩ := by
  intro r
  have hss' := RegisterStack.spares_current hs
  have hss'' := RegisterStack.spares_current hs'
  have hbound : AluOp.add.apply div (σ.read .zero) (σ.operand (.immediate length.toInt32)) =
      some length.toInt32 := by
    rw [State.read_zero]
    exact congrArg some (Int32.zero_add _)
  have hindex : (σ.write s''.current length.toInt32).read s'.current = i := by
    rw [State.read_write_of_spares hss'', hi]
  refine .alu hbound (.branch_out (codeFrom_of_not_mem hL.indexError) ?_ ?_)
  · rw [hindex, State.read_write_self s''.current_ne_zero]
    intro hh
    exact ⟨.index, if_neg ((holds_geu_iff hlength i).1 hh), rfl, hm⟩
  · rw [hindex, State.read_write_self s''.current_ne_zero]
    intro hh
    have hin : 0 ≤ i.toInt ∧ i.toInt < length.toNat := by
      by_contra hout
      rw [(holds_geu_iff hlength i).2 hout] at hh
      cases hh
    have hk : σ.Keeps s (σ.write s''.current length.toInt32) :=
      ((State.keeps_write σ _).of_push? hs').of_push? hs
    refine .alu rfl (.alu rfl (.here (.write
      (hk.trans ((State.keeps_write _ _).of_push? hs)) hm ?_)))
    rw [State.read_write_of_spares hss', State.read_write_of_spares (hss'.push? hs'), hx, hindex]
    show r = Except.ok (x + State.read _ s'.current)
    rw [State.read_write_self s'.current_ne_zero]
    exact if_pos hin

/-- The branches that store the truth of a comparison. -/
theorem truth (hL : Linked program) {op : Comparison} {l l' : String} {a b : Reg} {x y : Word}
    (hp : plain (.branch op.negate.cond a b l) ::
      plain (.alu .add s.current .zero (.immediate 1)) :: plain (.jump l') :: plain (.label l) ::
      plain (.alu .add s.current .zero (.immediate 0)) :: plain (.label l') :: k <:+ program)
    (hm : σ.memory = m) (hx : σ.read a = x) (hy : σ.read b = y) :
    Leads div program (Yields s σ m (.ok (if op.holds x y then 1 else 0)) k)
      (StopsAs (.ok (if op.holds x y then 1 else 0)) m)
      ⟨plain (.branch op.negate.cond a b l) :: plain (.alu .add s.current .zero (.immediate 1)) ::
        plain (.jump l') :: plain (.label l) :: plain (.alu .add s.current .zero (.immediate 0)) ::
        plain (.label l') :: k, σ⟩ := by
  have hfalse := (List.suffix_append [_, _, _] _).trans hp
  have hdone := (List.suffix_append [_, _] _).trans hfalse
  refine .branch (codeFrom_eq hL.nodup hfalse) ?_ ?_
  · rw [hx, hy, Comparison.holds_negate, Bool.not_eq_true']
    intro hh
    rw [hh]
    refine .label (.alu rfl (.label (.here (.write (.refl s σ) hm ?_))))
    rw [State.read_zero, if_neg Bool.false_ne_true]
    rfl
  · rw [hx, hy, Comparison.holds_negate, Bool.not_eq_false']
    intro hh
    rw [hh]
    refine .alu rfl (.jump (codeFrom_eq hL.nodup hdone) (.label (.here (.write (.refl s σ) hm ?_))))
    rw [State.read_zero, if_pos rfl]
    rfl

end Machine.Leads

mutual

/-- The code of a designator leads to its address. -/
theorem Designator.AddressCode.leads (hL : Linked program) (hE : (t.typeEnv a.scope).Fits)
    (hb : a.base.isFree = false) : ∀ {s : RegisterStack} {n : Nat} {d : Designator} {ty : Ty}
    {code k : List Line} {σ : State}, d.AddressCode t a s n code →
    d.HasType (t.typeEnv a.scope) ty → code ++ k <:+ program →
    Situated a ⟨t, a.scope, fp⟩ m σ →
    Leads div program (Yields s σ m (d.locate div ⟨t, a.scope, fp⟩ m) k)
      (StopsAs (d.locate div ⟨t, a.scope, fp⟩ m) m) ⟨code ++ k, σ⟩
  | s, n, _, ty, _, k, σ, @Designator.AddressCode.named _ _ _ _ p name slot v offset distance
      hv ho hd, hty, hp, hσ => by
    have haddress : σ.read a.base + distance = fp + offset := by
      rw [Word.eq_add_of_sum hd, ← Int32.add_assoc, hσ.framePointer]
    rw [Designator.locate_named hv ho]
    rw [List.cons_append]
    refine .alu rfl ?_
    cases hr : v.isReference with
    | false => exact .here (.write (.refl s σ) hσ.memory (by rw [← haddress]; rfl))
    | true =>
      refine .load (.here (.write (State.keeps_write σ _) hσ.memory ?_))
      rw [State.read_write_self s.current_ne_zero, Int32.add_zero, State.memory_write, hσ.memory,
        if_pos rfl, ← haddress]
      rfl
  | _, n, _, ty, _, k, σ, @Designator.AddressCode.element _ _ s s' s'' _ p array index slot
      length base size ac ic ha hsize hs' hs'' hac hic, hty, hp, hσ => by
    obtain ⟨harray, hindex⟩ : array.HasType (t.typeEnv a.scope) (.array length base) ∧
        index.HasType (t.typeEnv a.scope) .int := by
      cases hty with
      | element harray hindex =>
        have htype := harray.type_eq
        rw [ha] at htype
        cases htype
        exact ⟨harray, hindex⟩
    have hfits := harray.fits hE
    have hbytes : size = Int32.ofNat base.bytes := by
      obtain ⟨w, hw, hw'⟩ := Ty.byteSize_of_fits hfits.base
      rw [hsize] at hw
      cases hw
      exact Word.eq_ofNat hw'
    rw [Designator.locate_element ha, ← hbytes]
    simp only [List.append_assoc] at hp ⊢
    refine (hac.leads hL hE hb harray hp hσ).operands (Q := fun r => Yields s σ m r k) hs'
      (fun σ₁ hm₁ hk₁ => hic.leads hL hE hb hindex ((List.suffix_append ..).trans hp)
        (hσ.keeps hb hk₁ hm₁)) fun x i σ₂ hm₂ hk₂ hx hi => ?_
    exact (Leads.element hL hs' hs'' hfits.length_le hm₂ hx hi).mono
      (fun _ h => h.of_keeps hk₂) fun _ _ hx => hx
  | _, n, _, ty, _, k, σ, @Designator.AddressCode.field _ _ s _ p record name slot rty offset rc
      hr ho hrc, hty, hp, hσ => by
    obtain ⟨fields, fty, hrecord, hfield⟩ : ∃ fields fty,
        record.HasType (t.typeEnv a.scope) (.record fields) ∧
          Ty.fieldType? fields name = some fty := by
      cases hty with
      | field hrecord hfield => exact ⟨_, _, hrecord, hfield⟩
    have htype := hrecord.type_eq
    rw [hr] at htype
    cases htype
    have hoffset : offset = Int32.ofNat (Ty.bytesBefore name fields) := by
      obtain ⟨w, hw, hw'⟩ := Ty.fieldOffset_of_fits (hrecord.fits hE) hfield
      rw [offsetInRecord, hw] at ho
      cases ho
      exact Word.eq_ofNat hw'
    rw [Designator.locate_field hr hfield, ← hoffset]
    rw [List.append_assoc] at hp ⊢
    refine (hrc.leads hL hE hb hrecord hp hσ).andThen fun x σ₁ hm₁ hk₁ hx => ?_
    by_cases h0 : offset = 0
    · rw [h0, if_neg (by simp), Int32.add_zero]
      exact .here ⟨rfl, hm₁, hk₁, congrArg Except.ok hx.symm⟩
    · rw [if_pos h0]
      exact .alu rfl (.here (.write hk₁ hm₁ (by rw [hx]; rfl)))

/-- The code of an expression leads to its value. -/
theorem Expr.ValueCode.leads (hL : Linked program) (hE : (t.typeEnv a.scope).Fits)
    (hb : a.base.isFree = false) : ∀ {s : RegisterStack} {n : Nat} {e : Expr} {ty : Ty}
    {code k : List Line} {σ : State}, e.ValueCode t a s n code →
    e.HasType (t.typeEnv a.scope) ty → code ++ k <:+ program →
    Situated a ⟨t, a.scope, fp⟩ m σ →
    Leads div program (Yields s σ m (e.eval div ⟨t, a.scope, fp⟩ m) k)
      (StopsAs (e.eval div ⟨t, a.scope, fp⟩ m) m) ⟨code ++ k, σ⟩
  | s, _, _, _, _, k, σ, .literal, _, _, hσ => by
    refine .alu rfl (.here (.write (.refl s σ) hσ.memory ?_))
    rw [Expr.eval, State.read_zero]
    exact congrArg _ (Int32.zero_add _).symm
  | _, _, _, _, _, k, σ, @Expr.ValueCode.unary _ _ s _ p e slot _ he, hty, hp, hσ => by
    rw [Expr.eval_minus]
    rw [List.append_assoc] at hp ⊢
    cases hty with
    | unary hty _ =>
      refine (he.leads hL hE hb hty hp hσ).andThen fun v σ₁ hm₁ hk₁ hv => ?_
      refine .alu rfl (.here (.write hk₁ hm₁ ?_))
      rw [State.read_zero]
      exact congrArg Except.ok (by rw [State.operand, hv, Int32.zero_sub])
  | _, n, _, _, _, k, σ, @Expr.ValueCode.compare _ _ s s' _ p op l r slot _ _ hs hl hr, hty, hp,
      hσ => by
    rw [Expr.eval_compare]
    simp only [List.append_assoc] at hp ⊢
    cases hty with
    | compare htl htr =>
      have hp₁ := (List.suffix_append ..).trans hp
      have hp₂ := (List.suffix_append ..).trans hp₁
      refine (hl.leads hL hE hb htl hp hσ).operands (Q := fun r => Yields s σ m r k) hs
        (fun σ₁ hm₁ hk₁ => hr.leads hL hE hb htr hp₁ (hσ.keeps hb hk₁ hm₁))
        fun x y σ₂ hm₂ hk₂ hx hy => ?_
      exact (Leads.truth hL hp₂ hm₂ hx hy).mono (fun _ h => h.of_keeps hk₂) fun _ _ hx => hx
  | _, _, _, _, _, k, σ, @Expr.ValueCode.arith _ _ s s' _ p op l r slot _ _ hs hl hr, hty, hp,
      hσ => by
    rw [Expr.eval_arith]
    simp only [List.append_assoc] at hp ⊢
    cases hty with
    | arith htl htr =>
      refine (hl.leads hL hE hb htl hp hσ).operands (Q := fun r => Yields s σ m r k) hs
        (fun σ₁ hm₁ hk₁ => hr.leads hL hE hb htr ((List.suffix_append ..).trans hp)
          (hσ.keeps hb hk₁ hm₁)) fun x y σ₂ hm₂ hk₂ hx hy => ?_
      have happly : op.aluOp.apply div (σ₂.read s.current) (σ₂.operand (.register s'.current)) =
          op.apply div x y := by
        rw [ArithOp.apply_aluOp, hx, State.operand, hy]
      cases hv : op.apply div x y with
      | some v =>
        rw [hv] at happly
        exact .alu happly (.here (.write hk₂ hm₂ rfl))
      | none =>
        rw [hv] at happly
        exact .undefined happly ⟨.division, rfl, rfl, hm₂⟩
  | _, _, _, _, _, k, σ, @Expr.ValueCode.designator _ _ s _ p d slot _ hd, hty, hp, hσ => by
    rw [Expr.eval_designator]
    rw [List.append_assoc] at hp ⊢
    cases hty with
    | designator hty =>
      refine (hd.leads hL hE hb hty hp hσ).andThen fun x σ₁ hm₁ hk₁ hx => ?_
      refine .load (.here (.write hk₁ hm₁ ?_))
      rw [hx, hm₁, Int32.add_zero]

end

/-- The evaluation of a condition has led to the code `k` if it is true, and to the code `target` if
it is not. -/
structure Chooses (s : RegisterStack) (σ : State) (m : Memory) (r : Except Trap Word)
    (k target : List Line) (c : Config) : Prop where
  memory : c.state.memory = m
  keeps : σ.Keeps s c.state
  value : (∃ v, v ≠ 0 ∧ r = .ok v ∧ c.code = k) ∨ (r = .ok 0 ∧ c.code = target)

/-- The code of a condition goes on exactly if it is true. -/
theorem Expr.BranchCode.leads (hL : Linked program) (hE : (t.typeEnv a.scope).Fits)
    (hb : a.base.isFree = false) {label : String} {n : Nat} {e : Expr} {ty : Ty}
    {code k target : List Line} (h : e.BranchCode t a label s n code)
    (hty : e.HasType (t.typeEnv a.scope) ty) (hp : code ++ k <:+ program)
    (hc : codeFrom label program = some target) (hσ : Situated a ⟨t, a.scope, fp⟩ m σ) :
    Leads div program (Chooses s σ m (e.eval div ⟨t, a.scope, fp⟩ m) k target)
      (StopsAs (e.eval div ⟨t, a.scope, fp⟩ m) m) ⟨code ++ k, σ⟩ := by
  cases h with
  | compare hs hl hr =>
    rw [Expr.eval_compare]
    simp only [List.append_assoc] at hp ⊢
    cases hty with
    | compare htl htr =>
      refine (hl.leads hL hE hb htl hp hσ).operands (Q := fun r => Chooses s σ m r k target) hs
        (fun σ₁ hm₁ hk₁ => hr.leads hL hE hb htr ((List.suffix_append ..).trans hp)
          (hσ.keeps hb hk₁ hm₁)) fun x y σ₂ hm₂ hk₂ hx hy => ?_
      refine .branch hc ?_ ?_
      · rw [hx, hy, Comparison.holds_negate, Bool.not_eq_true']
        intro hh
        rw [hh]
        exact .here ⟨hm₂, hk₂, .inr ⟨rfl, rfl⟩⟩
      · rw [hx, hy, Comparison.holds_negate, Bool.not_eq_false']
        intro hh
        rw [hh]
        exact .here ⟨hm₂, hk₂, .inl ⟨1, by decide, rfl, rfl⟩⟩
  | value hn he =>
    rw [List.append_assoc] at hp ⊢
    refine (he.leads hL hE hb hty hp hσ).bind ?_ fun _ _ hx => hx
    intro c h
    obtain ⟨_, σ₁⟩ := c
    obtain ⟨rfl, hm₁, hk₁, hv⟩ := h
    rw [hv]
    have hz : (Cond.eq.holds (σ₁.read s.current) (σ₁.read .zero) = true) ↔
        σ₁.read s.current = 0 := by
      rw [State.read_zero]
      exact beq_iff_eq
    refine .branch hc (fun hh => ?_) (fun hh => ?_)
    · exact .here ⟨hm₁, hk₁, .inr ⟨by rw [hz.1 hh], rfl⟩⟩
    · refine .here ⟨hm₁, hk₁, .inl ⟨_, fun h0 => ?_, rfl, rfl⟩⟩
      rw [hz.2 h0] at hh
      cases hh

end

end Spl
