import Mathlib.Data.List.Forall2
import Spl.Proofs.Code.Programs

/-!
# Code that is generated twice

The code of one tree, generated at two sites: with two tables that agree on what the tree names, two
ways to reach variables and two numbers of the first label. The two runs end alike, and their lines
correspond one by one: only the addresses of variables and the numbers of labels differ.

* `Twin`: two runs that end alike.
* `Site`, `Site.Agrees`: where code is generated, and what two sites have in common.
* `Inst.Corresponds`: the instructions that the two runs give for one another.
* `Abreast`: two steps that keep the states of two sites level.
* `Expr.value_abreast`, `Stmt.code_abreast`, `Stmt.codeOf_abreast`: the forms.
-/

namespace Spl

/-! ## Two runs -/

/-- How a run of code generation ends. -/
abbrev Outcome (α : Type) := EStateM.Result (Failure CodegenError) Generator α

/-- Two runs end alike: both succeed with `Q`, or both fail with the same error. A fault of one of
them leaves the other one open. -/
inductive Twin {α β : Type} (Q : α → Generator → β → Generator → Prop) :
    Outcome α → Outcome β → Prop
  | ok {a : α} {g : Generator} {b : β} {h : Generator} : Q a g b h → Twin Q (.ok a g) (.ok b h)
  | error {e : Located CodegenError} {g h : Generator} :
      Twin Q (.error (.error e) g) (.error (.error e) h)
  | faultLeft {f : Fault} {g : Generator} {o : Outcome β} : Twin Q (.error (.fault f) g) o
  | faultRight {o : Outcome α} {f : Fault} {h : Generator} : Twin Q o (.error (.fault f) h)

namespace Twin

variable {α β γ δ : Type} {Q Q' : α → Generator → β → Generator → Prop}
  {R : γ → Generator → δ → Generator → Prop} {x : Gen α} {y : Gen β} {g h : Generator}

theorem mono {o : Outcome α} {o' : Outcome β} (ht : Twin Q o o')
    (hQ : ∀ a g b h, Q a g b h → Q' a g b h) : Twin Q' o o' := by
  cases ht with
  | ok h => exact .ok (hQ _ _ _ _ h)
  | error => exact .error
  | faultLeft => exact .faultLeft
  | faultRight => exact .faultRight

theorem bind {f : α → Gen γ} {f' : β → Gen δ} (ht : Twin Q (x g) (y h))
    (hf : ∀ a g' b h', Q a g' b h' → Twin R (f a g') (f' b h')) :
    Twin R ((x >>= f) g) ((y >>= f') h) := by
  show Twin R (EStateM.bind x f g) (EStateM.bind y f' h)
  unfold EStateM.bind
  generalize x g = o at ht ⊢
  generalize y h = o' at ht ⊢
  cases ht with
  | ok h => exact hf _ _ _ _ h
  | error => exact .error
  | faultLeft => exact .faultLeft
  | faultRight =>
    cases o with
    | ok a g' => exact .faultRight
    | error e g' => exact .faultRight

end Twin

/-! ## Sites -/

/-- Where code is generated: the table, how variables are reached, and the number of the first
label. -/
structure Site where
  table : SymbolTable
  addressing : Addressing
  firstLabel : Nat

/-- At the second site, a name stands for the same variable and a call for the same parameters as at
the first one. The first site reaches variables from a register that is not computed with. -/
structure Site.Agrees (l r : Site) : Prop where
  variable_eq : ∀ name, variableAt r.table r.addressing.scope name =
    variableAt l.table l.addressing.scope name
  parameters_eq : ∀ name, (r.table.procedure? name).map (·.parameters) =
    (l.table.procedure? name).map (·.parameters)
  base_ne : l.addressing.base ≠ .zero
  base_isFree : l.addressing.base.isFree = false

namespace Inst

/-- True of the instructions that are the same at every site, where variables are reached from the
given register: they compute no address of a variable, and name no local label. -/
def isShared (base : Reg) : Inst → Bool
  | .label _ | .jump _ => false
  | .branch _ _ _ target => target = indexErrorRoutine
  | .alu .add _ source (.immediate _) => source ≠ base
  | .alu .add _ _ (.register _) | .alu .sub .. | .alu .mul .. | .alu .div .. => true
  | .load .. | .store .. | .jumpRegister _ | .call _ => true
  | .importName _ | .exportName _ | .code | .align _ | .blank => true

/-- The instruction of the second site for one of the first site. -/
inductive Corresponds (l r : Site) : Inst → Inst → Prop
  | address {target : Reg} {offset w w' : Word} :
      l.addressing.bias.sum offset = .ok w → r.addressing.bias.sum offset = .ok w' →
      Corresponds l r (.alu .add target l.addressing.base (.immediate w))
        (.alu .add target r.addressing.base (.immediate w'))
  | label (i : Nat) : Corresponds l r (.label (labelName (l.firstLabel + i)))
      (.label (labelName (r.firstLabel + i)))
  | jump (i : Nat) : Corresponds l r (.jump (labelName (l.firstLabel + i)))
      (.jump (labelName (r.firstLabel + i)))
  | branch {cond : Cond} {a b : Reg} (i : Nat) :
      Corresponds l r (.branch cond a b (labelName (l.firstLabel + i)))
        (.branch cond a b (labelName (r.firstLabel + i)))
  | shared {inst : Inst} : inst.isShared l.addressing.base = true → Corresponds l r inst inst

end Inst

/-- The line of the second site for one of the first site. -/
structure Line.Corresponds (l r : Site) (x y : Line) : Prop where
  inst : x.inst.Corresponds l r y.inst
  comment : y.comment = x.comment

/-- The states of two sites are level: the same registers are in use, as many labels have been
taken, and the lines since the states `g₀` and `h₀` correspond. -/
structure Level (l r : Site) (g₀ h₀ : Generator) (s : RegisterStack) (g h : Generator) : Prop where
  left : g.registers = s
  right : h.registers = s
  labels : ∃ i, g.nextLabel = l.firstLabel + i ∧ h.nextLabel = r.firstLabel + i
  lines : ∃ c d, g.lines.toList = g₀.lines.toList ++ c ∧ h.lines.toList = h₀.lines.toList ++ d ∧
    List.Forall₂ (Line.Corresponds l r) c d

/-- From level states with the registers `s` the two steps get to level states with the registers
`s'`, or end alike. -/
def Abreast (l r : Site) (s s' : RegisterStack) (x y : Gen Unit) : Prop :=
  ∀ g₀ h₀ g h, Level l r g₀ h₀ s g h →
    Twin (fun _ g' _ h' => Level l r g₀ h₀ s' g' h') (x g) (y h)

/-! ### Steps -/

section

variable {g : Generator} {s : RegisterStack} {p : Position}

theorem push_eq (p : Position) (g : Generator) :
    push p g = g.registers.push?.elim (.error (.error ⟨p, .registersExhausted⟩) g)
      fun s => .ok s.current { g with registers := s } := by
  show (push p).run g = _
  unfold push
  rw [EStateM.run_bind, EStateM.run_get]
  dsimp only
  cases g.registers.push? <;> rfl

theorem pop_of_push? (h : s.push? = some g.registers) :
    pop g = .ok () { g with registers := s } := by
  show ((liftM g.registers.pop : Gen RegisterStack) >>= fun registers =>
    (set { g with registers } : Gen Unit)) g = _
  rw [RegisterStack.pop_of_push? h]
  rfl

theorem newLabel_of_lt (h : g.nextLabel + 1 < UInt32.size) :
    newLabel g = .ok (labelName g.nextLabel) { g with nextLabel := g.nextLabel + 1 } := by
  show (if g.nextLabel + 1 < UInt32.size then _ else _ : Gen String) g = _
  rw [if_pos h]
  rfl

theorem newLabel_of_not_lt (h : ¬g.nextLabel + 1 < UInt32.size) :
    newLabel g = .error (.fault (.overflow .addition)) g := by
  show (if g.nextLabel + 1 < UInt32.size then _ else _ : Gen String) g = _
  rw [if_neg h]
  rfl

end

variable {l r : Site} {s s' s'' : RegisterStack}

namespace Level

variable {g₀ h₀ g h : Generator}

/-- A line appended on each side. -/
theorem push (hl : Level l r g₀ h₀ s g h) {x y : Line} (hxy : x.Corresponds l r y) :
    Level l r g₀ h₀ s { g with lines := g.lines.push x } { h with lines := h.lines.push y } := by
  obtain ⟨c, d, hc, hd, hcd⟩ := hl.lines
  refine ⟨hl.left, hl.right, hl.labels, c ++ [x], d ++ [y], ?_, ?_, ?_⟩
  · rw [Array.toList_push, hc, List.append_assoc]
  · rw [Array.toList_push, hd, List.append_assoc]
  · exact List.rel_append hcd (.cons hxy .nil)

theorem withRegisters (hl : Level l r g₀ h₀ s g h) (s' : RegisterStack) :
    Level l r g₀ h₀ s' { g with registers := s' } { h with registers := s' } :=
  ⟨rfl, rfl, hl.labels, hl.lines⟩

end Level

namespace Abreast

variable {α : Type} {x y : Gen Unit}

theorem pure : Abreast l r s s (Pure.pure ()) (Pure.pure ()) := fun _ _ _ _ hl => .ok hl

theorem fault {f : Fault} : Abreast l r s s' (Gen.fault f) y := fun _ _ _ _ _ => .faultLeft

/-- Steps whose answers are related, before steps that go on with any related answers. -/
theorem bind_of {β γ : Type} {u : RegisterStack} {x : Gen β} {y : Gen γ} {f : β → Gen Unit}
    {f' : γ → Gen Unit} {R : β → γ → Prop}
    (h : ∀ g₀ h₀ g h, Level l r g₀ h₀ s g h →
      Twin (fun a g' b h' => R a b ∧ Level l r g₀ h₀ u g' h') (x g) (y h))
    (hf : ∀ a b, R a b → Abreast l r u s'' (f a) (f' b)) :
    Abreast l r s s'' (x >>= f) (y >>= f') :=
  fun g₀ h₀ g g' hl => (h g₀ h₀ g g' hl).bind fun a _ b _ hab => hf a b hab.1 g₀ h₀ _ _ hab.2

theorem bind {u : RegisterStack} {f f' : Unit → Gen Unit} (h : Abreast l r s u x y)
    (hf : Abreast l r u s'' (f ()) (f' ())) : Abreast l r s s'' (x >>= f) (y >>= f') :=
  bind_of (R := fun _ _ => True)
    (fun g₀ h₀ g g' hl => (h g₀ h₀ g g' hl).mono fun _ _ _ _ hl' => ⟨trivial, hl'⟩) fun _ _ _ => hf

theorem current_bind {f f' : Reg → Gen Unit}
    (h : Abreast l r s s' (f s.current) (f' s.current)) :
    Abreast l r s s' (current >>= f) (current >>= f') :=
  bind_of (R := fun a b => a = s.current ∧ b = s.current)
    (fun _ _ g g' hl => .ok ⟨⟨by rw [hl.left], by rw [hl.right]⟩, hl⟩)
    fun a b hab => by rw [hab.1, hab.2]; exact h

theorem emit {i i' : Inst} (hi : i.Corresponds l r i') :
    Abreast l r s s (Spl.emit i) (Spl.emit i') := fun _ _ _ _ hl => .ok (hl.push ⟨hi, rfl⟩)

theorem emitNoted {i i' : Inst} {comment : String} (hi : i.Corresponds l r i') :
    Abreast l r s s (Spl.emitNoted i comment) (Spl.emitNoted i' comment) :=
  fun _ _ _ _ hl => .ok (hl.push ⟨hi, rfl⟩)

theorem emit_bind {i i' : Inst} {f f' : Unit → Gen Unit} (hi : i.Corresponds l r i')
    (h : Abreast l r s s' (f ()) (f' ())) :
    Abreast l r s s' (Spl.emit i >>= f) (Spl.emit i' >>= f') := (emit hi).bind h

/-- The same instruction on both sides. -/
theorem shared_bind {i : Inst} {f f' : Unit → Gen Unit}
    (hi : i.isShared l.addressing.base = true) (h : Abreast l r s s' (f ()) (f' ())) :
    Abreast l r s s' (Spl.emit i >>= f) (Spl.emit i >>= f') := emit_bind (.shared hi) h

/-- Both sides take the next register, or neither has one left. -/
theorem push_bind {p : Position} {f f' : Reg → Gen Unit}
    (h : ∀ s', s.push? = some s' → Abreast l r s' s'' (f s'.current) (f' s'.current)) :
    Abreast l r s s'' (push p >>= f) (push p >>= f') := by
  cases hs : s.push? with
  | some s' =>
    refine bind_of (R := fun a b => a = s'.current ∧ b = s'.current) (u := s')
      (fun _ _ g g' hl => ?_) fun a b hab => by rw [hab.1, hab.2]; exact h s' hs
    rw [push_eq, push_eq, hl.left, hl.right, hs]
    exact .ok ⟨⟨rfl, rfl⟩, hl.withRegisters s'⟩
  | none =>
    refine bind_of (R := fun _ _ => False) (u := s) (fun _ _ g g' hl => ?_) fun _ _ hab => hab.elim
    rw [push_eq, push_eq, hl.left, hl.right, hs]
    exact .error

/-- Both sides give the same register back. -/
theorem pop_bind {f f' : Unit → Gen Unit} (hs : s'.push? = some s)
    (h : Abreast l r s' s'' (f ()) (f' ())) :
    Abreast l r s s'' (Spl.pop >>= f) (Spl.pop >>= f') := by
  refine bind (u := s') (fun _ _ g g' hl => ?_) h
  rw [pop_of_push? (by rw [hl.left, hs]), pop_of_push? (by rw [hl.right, hs])]
  exact .ok (hl.withRegisters s')

theorem pop (hs : s'.push? = some s) : Abreast l r s s' Spl.pop Spl.pop := by
  have h := pop_bind hs (pure (l := l) (r := r))
  rwa [bind_pure] at h

/-- Both sides take the same number of labels. -/
theorem newLabel_bind {f f' : String → Gen Unit}
    (h : ∀ i, Abreast l r s s' (f (labelName (l.firstLabel + i)))
      (f' (labelName (r.firstLabel + i)))) :
    Abreast l r s s' (newLabel >>= f) (newLabel >>= f') := by
  refine bind_of (u := s) (R := fun a b => ∃ i, a = labelName (l.firstLabel + i) ∧
    b = labelName (r.firstLabel + i)) (fun _ _ g g' hl => ?_) fun a b ⟨i, ha, hb⟩ => ha ▸ hb ▸ h i
  obtain ⟨i, hi, hi'⟩ := hl.labels
  by_cases hg : g.nextLabel + 1 < UInt32.size
  · by_cases hg' : g'.nextLabel + 1 < UInt32.size
    · rw [newLabel_of_lt hg, newLabel_of_lt hg']
      exact .ok ⟨⟨i, by rw [hi], by rw [hi']⟩, hl.left, hl.right,
        ⟨i + 1, by rw [hi, Nat.add_assoc], by rw [hi', Nat.add_assoc]⟩, hl.lines⟩
    · rw [newLabel_of_not_lt hg']
      exact .faultRight
  · rw [newLabel_of_not_lt hg]
    exact .faultLeft

/-- Computations that end alike or in a fault. -/
theorem lift_bind {α β : Type} {x : Except Fault α} {y : Except Fault β} {f : α → Gen Unit}
    {f' : β → Gen Unit}
    (h : ∀ a b, x = .ok a → y = .ok b → Abreast l r s s' (f a) (f' b)) :
    Abreast l r s s' ((liftM x : Gen α) >>= f) ((liftM y : Gen β) >>= f') := by
  cases x with
  | error e => exact fun _ _ _ _ _ => .faultLeft
  | ok a =>
    cases y with
    | error e =>
      refine bind_of (R := fun _ _ => False) (u := s) (fun _ _ g g' hl => ?_)
        fun _ _ hab => hab.elim
      exact .faultRight
    | ok b => exact h a b rfl rfl

/-- The same computation on both sides. -/
theorem same_bind {β : Type} {z : Except Fault β} {f f' : β → Gen Unit}
    (h : ∀ b, z = .ok b → Abreast l r s s' (f b) (f' b)) :
    Abreast l r s s' ((liftM z : Gen β) >>= f) ((liftM z : Gen β) >>= f') :=
  lift_bind fun a b ha hb => by
    rw [ha, Except.ok.injEq] at hb
    exact hb ▸ h a ha

end Abreast

/-! ## Expressions and designators -/

namespace Site.Agrees

theorem isShared_zero (hA : l.Agrees r) {target : Reg} {w : Word} :
    (Inst.alu .add target .zero (.immediate w)).isShared l.addressing.base = true :=
  decide_eq_true fun h => hA.base_ne h.symm

theorem isShared_current (hA : l.Agrees r) {target : Reg} {w : Word} (s : RegisterStack) :
    (Inst.alu .add target s.current (.immediate w)).isShared l.addressing.base = true := by
  refine decide_eq_true fun h => ?_
  have hfree := s.current_isFree
  rw [h, hA.base_isFree] at hfree
  cases hfree

end Site.Agrees

mutual

/-- The address of a designator. -/
theorem Designator.address_abreast (hA : l.Agrees r) : ∀ (d : Designator) (s : RegisterStack),
    Abreast l r s s (d.address l.table l.addressing) (d.address r.table r.addressing)
  | .named p name slot, s => by
    unfold Designator.address
    rw [hA.variable_eq]
    refine .current_bind (.same_bind fun v _ => ?_)
    cases v.offset with
    | none => exact .fault
    | some offset =>
      refine .lift_bind fun w w' hw hw' => .emit_bind (.address hw hw') ?_
      cases v.isReference with
      | true => exact .emit (.shared rfl)
      | false => exact .pure
  | .element p array index slot, s => by
    unfold Designator.address
    refine .current_bind (.same_bind fun ty _ => .same_bind fun x _ => ?_)
    refine .bind (Designator.address_abreast hA array s) (.push_bind fun s' hs' => ?_)
    refine .bind (Expr.value_abreast hA index s') (.push_bind fun s'' hs'' => ?_)
    refine .shared_bind hA.isShared_zero (.shared_bind rfl (.pop_bind hs'' ?_))
    exact .same_bind fun w _ => .shared_bind rfl (.pop_bind hs' (.emit (.shared rfl)))
  | .field p record name slot, s => by
    unfold Designator.address
    refine .current_bind (.same_bind fun ty _ => .same_bind fun w _ => ?_)
    refine .bind (Designator.address_abreast hA record s) ?_
    by_cases h0 : w ≠ 0
    · rw [if_pos h0]
      exact .emit (.shared (hA.isShared_current s))
    · rw [if_neg h0]
      exact .pure

/-- The value of an expression. -/
theorem Expr.value_abreast (hA : l.Agrees r) : ∀ (e : Expr) (s : RegisterStack),
    Abreast l r s s (e.value l.table l.addressing) (e.value r.table r.addressing)
  | .literal p value slot, s => by
    unfold Expr.value
    exact .current_bind (.emit (.shared hA.isShared_zero))
  | .unary p .minus operand slot, s => by
    unfold Expr.value
    exact .current_bind (.bind (Expr.value_abreast hA operand s) (.emit (.shared rfl)))
  | .binary p (.compare op) left right slot, s => by
    unfold Expr.value branchUnlessHolds
    refine .current_bind (.newLabel_bind fun i => .newLabel_bind fun j => ?_)
    simp only [bind_assoc]
    refine .current_bind (.bind (Expr.value_abreast hA left s) (.push_bind fun s' hs' => ?_))
    refine .bind (Expr.value_abreast hA right s') (.pop_bind hs' (.emit_bind (.branch i) ?_))
    exact .shared_bind hA.isShared_zero (.emit_bind (.jump j) (.emit_bind (.label i)
      (.shared_bind hA.isShared_zero (.emit (.label j)))))
  | .binary p (.arith op) left right slot, s => by
    unfold Expr.value
    refine .current_bind (.bind (Expr.value_abreast hA left s) (.push_bind fun s' hs' => ?_))
    refine .bind (Expr.value_abreast hA right s') (.pop_bind hs' (.emit (.shared ?_)))
    cases op <;> rfl
  | .designator p target slot, s => by
    unfold Expr.value
    exact .current_bind (.bind (Designator.address_abreast hA target s) (.emit (.shared rfl)))

end

/-! ## Conditions and calls -/

theorem Expr.branchUnless_abreast (hA : l.Agrees r) (e : Expr) (s : RegisterStack) (i : Nat) :
    Abreast l r s s (e.branchUnless l.table l.addressing (labelName (l.firstLabel + i)))
      (e.branchUnless r.table r.addressing (labelName (r.firstLabel + i))) := by
  cases hc : e.isCompare with
  | false =>
    rw [branchUnless_of_not_isCompare hc, branchUnless_of_not_isCompare hc]
    exact .current_bind (.bind (e.value_abreast hA s) (.emit (.branch i)))
  | true =>
    cases e with
    | binary p op left right slot =>
      cases op with
      | compare op =>
        unfold branchUnless branchUnlessHolds
        refine .current_bind (.bind (left.value_abreast hA s) (.push_bind fun s' hs' => ?_))
        exact .bind (right.value_abreast hA s') (.pop_bind hs' (.emit (.branch i)))
      | arith op => cases hc
    | literal p value slot => cases hc
    | unary p op e slot => cases hc
    | designator p d slot => cases hc

theorem Expr.argument_abreast (hA : l.Agrees r) (c : Call) (number : Nat) (v : Variable) (e : Expr)
    (s : RegisterStack) :
    Abreast l r s s (e.argument l.table l.addressing c number v)
      (e.argument r.table r.addressing c number v) := by
  unfold argument
  cases v.isReference with
  | false => exact e.value_abreast hA s
  | true =>
    cases e.designator? with
    | some d => exact d.address_abreast hA s
    | none => exact .fault

theorem Call.storeArguments_abreast (hA : l.Agrees r) (c : Call) (s : RegisterStack) :
    ∀ (es : List Expr) (vs : List Variable) (index : Nat),
      Abreast l r s s (c.storeArguments l.table l.addressing index es vs)
        (c.storeArguments r.table r.addressing index es vs)
  | e :: es, v :: vs, index => by
    unfold storeArguments
    refine .bind (e.argument_abreast hA c (index + 1) v s) ?_
    cases v.offset with
    | none => exact .fault
    | some offset =>
      exact .current_bind (.bind (.emitNoted (.shared rfl))
        (storeArguments_abreast hA c s es vs (index + 1)))
  | [], _, _ => by
    unfold storeArguments
    exact .pure
  | _ :: _, [], _ => by
    unfold storeArguments
    exact .pure

theorem Call.code_abreast (hA : l.Agrees r) (c : Call) (s : RegisterStack) :
    Abreast l r s s (c.code l.table l.addressing) (c.code r.table r.addressing) := by
  unfold Call.code
  have hp := hA.parameters_eq c.procedure
  cases hP : l.table.procedure? c.procedure with
  | none => exact .fault
  | some P =>
    rw [hP] at hp
    obtain ⟨P', hP', hps⟩ := Option.map_eq_some_iff.1 hp
    rw [hP']
    dsimp only
    rw [hps]
    exact .bind (c.storeArguments_abreast hA s _ _ 0) (.emit (.shared rfl))

/-! ## Statements -/

mutual

/-- The code of a statement. -/
theorem Stmt.code_abreast (hA : l.Agrees r) : ∀ (st : Stmt) (s : RegisterStack),
    Abreast l r s s (st.code l.table l.addressing) (st.code r.table r.addressing)
  | .assign p target value, s => by
    unfold Stmt.code
    refine .current_bind (.bind (target.address_abreast hA s) (.push_bind fun s' hs' => ?_))
    exact .bind (value.value_abreast hA s') (.shared_bind rfl (.pop hs'))
  | .ifElse p condition thenPart elsePart, s => by
    unfold Stmt.code
    cases elsePart.isEmpty with
    | true =>
      rw [if_pos rfl]
      refine .newLabel_bind fun i => .bind (condition.branchUnless_abreast hA s i) ?_
      exact .bind (Stmt.code_abreast hA thenPart s) (.emit (.label i))
    | false =>
      rw [if_neg Bool.false_ne_true]
      refine .newLabel_bind fun i => .bind (condition.branchUnless_abreast hA s i) ?_
      refine .bind (Stmt.code_abreast hA thenPart s) (.newLabel_bind fun j => ?_)
      exact .emit_bind (.jump j) (.emit_bind (.label i)
        (.bind (Stmt.code_abreast hA elsePart s) (.emit (.label j))))
  | .whileDo p condition body, s => by
    unfold Stmt.code
    refine .newLabel_bind fun i => .newLabel_bind fun j => .emit_bind (.label i) ?_
    refine .bind (condition.branchUnless_abreast hA s j) (.bind (Stmt.code_abreast hA body s) ?_)
    exact .emit_bind (.jump i) (.emit (.label j))
  | .call c, s => by
    unfold Stmt.code
    exact c.code_abreast hA s
  | .compound p statements, s => by
    unfold Stmt.code
    exact Stmt.codeOf_abreast hA statements s
  | .empty p, s => by
    unfold Stmt.code
    exact .pure

/-- The code of a list of statements. -/
theorem Stmt.codeOf_abreast (hA : l.Agrees r) : ∀ (ss : List Stmt) (s : RegisterStack),
    Abreast l r s s (Stmt.codeOf l.table l.addressing ss) (Stmt.codeOf r.table r.addressing ss)
  | [], s => by
    unfold Stmt.codeOf
    exact .pure
  | st :: ss, s => by
    unfold Stmt.codeOf
    exact .bind (Stmt.code_abreast hA st s) (Stmt.codeOf_abreast hA ss s)

end

/-! ## Procedures -/

namespace Twin

variable {α β γ δ : Type} {R : γ → Generator → δ → Generator → Prop} {x : Gen α} {y : Gen β}
  {g h : Generator}

/-- Two steps of which it is known how each succeeds. -/
theorem of_ends {Q : α → Generator → Prop} {Q' : β → Generator → Prop}
    (hx : Ends (fun _ => False) Q x g) (hy : Ends (fun _ => False) Q' y h) :
    Twin (fun a g' b h' => Q a g' ∧ Q' b h') (x g) (y h) := by
  unfold Ends at hx hy
  cases hg : x g with
  | ok a g' =>
    cases hh : y h with
    | ok b h' =>
      rw [hg] at hx
      rw [hh] at hy
      exact .ok ⟨hx, hy⟩
    | error e h' =>
      rw [hh] at hy
      exact hy.elim
  | error e g' =>
    rw [hg] at hx
    exact hx.elim

theorem emit_bind {i i' : Inst} {f : Unit → Gen γ} {f' : Unit → Gen δ}
    (ht : Twin R (f () (g.add 0 [plain i])) (f' () (h.add 0 [plain i']))) :
    Twin R ((emit i >>= f) g) ((emit i' >>= f') h) :=
  bind (of_ends (.emit (Q := fun _ g' => g' = g.add 0 [plain i]) rfl)
    (.emit (Q := fun _ h' => h' = h.add 0 [plain i']) rfl))
    fun _ _ _ _ hQ => hQ.1 ▸ hQ.2 ▸ ht

end Twin

/-- A state with as many labels more and as many lines more. -/
theorem Generator.eq_add {g g' : Generator} {k : Nat} {c : List Line}
    (hr : g'.registers = g.registers) (hn : g'.nextLabel = g.nextLabel + k)
    (hl : g'.lines.toList = g.lines.toList ++ c) : g' = g.add k c := by
  obtain ⟨s, n, lines⟩ := g'
  have hlines : lines = g.lines ++ c := Array.ext' (by simpa using hl)
  dsimp only at hr hn
  rw [hr, hn, hlines]
  rfl

/-- Code that has been generated abreast from the states in which the two sites begin. -/
theorem Abreast.run {x y : Gen Unit} {g h : Generator}
    (ha : Abreast l r g.registers g.registers x y) (hr : h.registers = g.registers)
    (hg : g.nextLabel = l.firstLabel) (hh : h.nextLabel = r.firstLabel) :
    Twin (fun _ g' _ h' => ∃ k c d, g' = g.add k c ∧ h' = h.add k d ∧
      List.Forall₂ (Line.Corresponds l r) c d) (x g) (y h) := by
  refine (ha g h g h ⟨rfl, hr, ⟨0, hg, hh⟩, [], [], by simp, by simp, .nil⟩).mono ?_
  intro _ g' _ h' hl
  obtain ⟨k, hk, hk'⟩ := hl.labels
  obtain ⟨c, d, hc, hd, hcd⟩ := hl.lines
  rw [← hg] at hk
  rw [← hh] at hk'
  exact ⟨k, c, d, Generator.eq_add hl.left hk hc,
    Generator.eq_add (hl.right.trans hr.symm) hk' hd, hcd⟩

/-- The size of a procedure's frame is known, and so is where its linkage lies. -/
structure Procedure.Framed (P : Procedure) (size : Word) : Prop where
  size : P.layout.frameSize = .ok (some size)
  linkage : P.layout.isLeaf = false → ∃ old ret, linkageOffsets P.layout = .ok (old, ret)

namespace ProcDecl

variable {d : ProcDecl} {t t' : SymbolTable} {P P' : Procedure} {size size' : Word}
  {g h : Generator}

/-- The block of a procedure around the given lines. -/
def block (d : ProcDecl) (entry body exit : List Line) : List Line :=
  plain .blank :: plain (.exportName d.name) :: plain (.label d.name) :: (entry ++ body ++ exit)

theorem code_eq (hP : t.procedure? d.name = some P) (hf : P.Framed size) :
    d.code t = (do
      emit .blank
      emit (.exportName d.name)
      emit (.label d.name)
      let addressing ← enterFrame P size
      Stmt.codeOf t addressing d.body
      leaveFrame P size) := by
  unfold code
  rw [hP]
  dsimp only
  rw [hf.size]
  rfl

/-- A procedure at two sites: the blocks have corresponding bodies. -/
theorem code_twin (hP : t.procedure? d.name = some P) (hP' : t'.procedure? d.name = some P')
    (hf : P.Framed size) (hf' : P'.Framed size') (hr : h.registers = g.registers)
    (hl : l = ⟨t, P.addressing size, g.nextLabel⟩)
    (hl' : r = ⟨t', P'.addressing size', h.nextLabel⟩) (hA : l.Agrees r) :
    Twin (fun _ g' _ h' => ∃ k entry entry' body body' exit exit',
        EntryCode P.layout size entry ∧ EntryCode P'.layout size' entry' ∧
        List.Forall₂ (Line.Corresponds l r) body body' ∧
        ExitCode P.layout size exit ∧ ExitCode P'.layout size' exit' ∧
        g' = g.add k (d.block entry body exit) ∧ h' = h.add k (d.block entry' body' exit'))
      (d.code t g) (d.code t' h) := by
  rw [code_eq hP hf, code_eq hP' hf']
  refine .emit_bind (.emit_bind (.emit_bind ?_))
  refine .bind (.of_ends (enterFrame_ends hf.linkage) (enterFrame_ends hf'.linkage)) ?_
  intro a g₁ a' h₁ hentries
  obtain ⟨⟨rfl, entry, hentry, rfl⟩, rfl, entry', hentry', rfl⟩ := hentries
  subst hl hl'
  refine .bind ((Stmt.codeOf_abreast hA d.body _).run hr rfl rfl) ?_
  intro _ g₂ _ h₂ hbodies
  obtain ⟨k, body, body', rfl, rfl, hbody⟩ := hbodies
  refine (Twin.of_ends (leaveFrame_ends hf.linkage) (leaveFrame_ends hf'.linkage)).mono ?_
  intro _ g₃ _ h₃ hexits
  obtain ⟨⟨exit, hexit, rfl⟩, exit', hexit', rfl⟩ := hexits
  refine ⟨k, entry, entry', body, body', exit, exit', hentry, hentry', hbody, hexit, hexit', ?_, ?_⟩
  · simp [block]
  · simp [block]

end ProcDecl

end Spl
