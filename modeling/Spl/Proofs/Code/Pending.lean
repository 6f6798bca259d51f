import Spl.Proofs.Code.Labels
import Spl.Proofs.Code.Twins

/-!
# Labels that are drawn and placed

Code generation draws a label from the counter before it places it, and an error can come in
between. What a form has done so far is therefore told by the labels that it has drawn and not
placed yet; none is left when it succeeds. This holds for every tree and every table.

* `IsLocalLabel`: the names that the counter gives.
* `Generator.Since`: what code generation has done since an earlier state.
* `Settled`, `Settles`: how a form ends that leaves no label to place and gives its registers back.
* `Expr.value_settles`, `Stmt.code_settles`, `Stmt.codeOf_settles`: the forms.
-/

namespace Spl

/-- True of the names that the counter of labels gives. -/
def IsLocalLabel (name : String) : Prop := ∃ n, name = labelName n

theorem not_isLocalLabel {name : String} (h : name.toList.head? ≠ some 'L') :
    ¬IsLocalLabel name := by
  rintro ⟨n, hn⟩
  exact labelName_ne h n hn.symm

theorem not_isLocalLabel_indexErrorRoutine : ¬IsLocalLabel indexErrorRoutine :=
  not_isLocalLabel (by decide)

/-! ## Progress -/

/-- What code generation has done since the state `g₀`. It has drawn labels and appended lines. Each
label that it has drawn is placed once, or `pending`; its lines go to names that `T` allows and to
labels that it has drawn, among which are the `own` ones. -/
def Generator.Since (T : String → Prop) (g₀ : Generator) (own pending : List String)
    (g : Generator) : Prop :=
  ∃ k code, g.nextLabel = g₀.nextLabel + k ∧ g.lines.toList = g₀.lines.toList ++ code ∧
    (labelsIn code ++ pending).Perm (drawn g₀.nextLabel k) ∧ own ⊆ drawn g₀.nextLabel k ∧
    ∀ l ∈ targetsIn code, T l ∨ l ∈ drawn g₀.nextLabel k

namespace Generator.Since

variable {T T' : String → Prop} {own pending pending' : List String} {g₀ g g' : Generator}

theorem refl (T : String → Prop) (g : Generator) : g.Since T [] [] g :=
  ⟨0, [], rfl, (List.append_nil _).symm, .nil, List.nil_subset _, nofun⟩

/-- Only the labels and the lines matter. -/
theorem congr (h : g₀.Since T own pending g) (hn : g'.nextLabel = g.nextLabel)
    (hl : g'.lines = g.lines) : g₀.Since T own pending g' := by
  unfold Since at *
  rwa [hn, hl]

theorem perm (h : g₀.Since T own pending g) (hp : pending.Perm pending') :
    g₀.Since T own pending' g := by
  obtain ⟨k, code, hn, hl, hlabels, hown, htargets⟩ := h
  exact ⟨k, code, hn, hl, (hp.symm.append_left _).trans hlabels, hown, htargets⟩

theorem forget (h : g₀.Since T own pending g) {own' : List String} (hown : own' ⊆ own) :
    g₀.Since T own' pending g := by
  obtain ⟨k, code, hn, hl, hlabels, hsub, htargets⟩ := h
  exact ⟨k, code, hn, hl, hlabels, List.Subset.trans hown hsub, htargets⟩

/-- A line that places no label. -/
theorem append (h : g₀.Since T own pending g) {l : Line} (hlabel : l.inst.label? = none)
    (htarget : ∀ x, l.inst.target? = some x → T x ∨ x ∈ own) :
    g₀.Since T own pending { g with lines := g.lines.push l } := by
  obtain ⟨k, code, hn, hl, hlabels, hown, htargets⟩ := h
  refine ⟨k, code ++ [l], hn, ?_, ?_, hown, fun x hx => ?_⟩
  · rw [Array.toList_push, hl, List.append_assoc]
  · have hnone : labelsIn [l] = [] := by simp [labelsIn, hlabel]
    rwa [labelsIn_append, hnone, List.append_nil]
  · rw [targetsIn_append, List.mem_append] at hx
    rcases hx with hx | hx
    · exact htargets x hx
    · have hx' : l.inst.target? = some x := by simpa [targetsIn] using hx
      exact (htarget x hx').imp_right fun h => hown h

/-- A pending label is placed. -/
theorem place {l : String} (h : g₀.Since T own (l :: pending) g) :
    g₀.Since T own pending { g with lines := g.lines.push (plain (.label l)) } := by
  obtain ⟨k, code, hn, hl, hlabels, hown, htargets⟩ := h
  refine ⟨k, code ++ [plain (.label l)], hn, ?_, ?_, hown, ?_⟩
  · rw [Array.toList_push, hl, List.append_assoc]
  · have hone : labelsIn [plain (.label l)] = [l] := rfl
    rw [labelsIn_append, hone, List.append_assoc]
    exact hlabels
  · have hnone : targetsIn [plain (.label l)] = [] := rfl
    rwa [targetsIn_append, hnone, List.append_nil]

/-- A label is drawn. -/
theorem draw (h : g₀.Since T own pending g) :
    g₀.Since T (labelName g.nextLabel :: own) (labelName g.nextLabel :: pending)
      { g with nextLabel := g.nextLabel + 1 } := by
  obtain ⟨k, code, hn, hl, hlabels, hown, htargets⟩ := h
  have hdrawn : drawn g₀.nextLabel (k + 1) = drawn g₀.nextLabel k ++ [labelName g.nextLabel] := by
    rw [drawn_add, hn]
    rfl
  have hsub : drawn g₀.nextLabel k ⊆ drawn g₀.nextLabel (k + 1) := by
    rw [hdrawn]
    exact List.subset_append_left _ _
  refine ⟨k + 1, code, ?_, hl, ?_, ?_, fun l h => (htargets l h).imp_right fun h => hsub h⟩
  · show g.nextLabel + 1 = _
    rw [hn, Nat.add_assoc]
  · rw [hdrawn]
    exact List.perm_middle.trans ((hlabels.cons _).trans (List.perm_append_singleton _ _).symm)
  · refine List.cons_subset.2 ⟨?_, List.Subset.trans hown hsub⟩
    rw [hdrawn]
    exact List.mem_append.2 (.inr (.head _))

/-- What has been done since a state in between, by a form that may also go to own labels. -/
theorem trans (h : g₀.Since T own pending g) (h' : g.Since T' [] pending' g')
    (hT : ∀ l, T' l → T l ∨ l ∈ own) : g₀.Since T own (pending' ++ pending) g' := by
  obtain ⟨k, code, hn, hl, hlabels, hown, htargets⟩ := h
  obtain ⟨k', code', hn', hl', hlabels', -, htargets'⟩ := h'
  have hdrawn : drawn g₀.nextLabel (k + k') = drawn g₀.nextLabel k ++ drawn g.nextLabel k' := by
    rw [drawn_add, hn]
  refine ⟨k + k', code ++ code', ?_, ?_, ?_, ?_, fun l h => ?_⟩
  · rw [hn', hn, Nat.add_assoc]
  · rw [hl', hl, List.append_assoc]
  · rw [hdrawn, List.perm_iff_count]
    intro l
    have hc := hlabels.count_eq l
    have hc' := hlabels'.count_eq l
    rw [List.count_append] at hc hc'
    simp only [labelsIn_append, List.count_append]
    omega
  · rw [hdrawn]
    exact List.Subset.trans hown (List.subset_append_left _ _)
  · rw [hdrawn, List.mem_append]
    rw [targetsIn_append, List.mem_append] at h
    rcases h with h | h
    · exact (htargets l h).imp_right .inl
    · rcases htargets' l h with h | h
      · exact (hT l h).imp_right fun h => .inl (hown h)
      · exact .inr (.inr h)

end Generator.Since

/-! ## Forms -/

/-- A run from `g₀` has succeeded with no label left to place and the registers `s`, or there was no
register left to take. Of a fault nothing is said. -/
inductive Settled {α : Type} (T : String → Prop) (g₀ : Generator) (own : List String)
    (s : RegisterStack) : Outcome α → Prop
  | ok {a : α} {g : Generator} :
      g₀.Since T own [] g → g.registers = s → Settled T g₀ own s (.ok a g)
  | error {p : Position} {pending : List String} {g : Generator} :
      g₀.Since T own pending g → g.registers.push? = none →
      Settled T g₀ own s (.error (.error ⟨p, .registersExhausted⟩) g)
  | fault {f : Fault} {g : Generator} : Settled T g₀ own s (.error (.fault f) g)

/-- Where the registers are `s` and the given labels are drawn and not placed yet, the step ends
settled with the registers `s'`. -/
def Settles {α : Type} (T : String → Prop) (own pending : List String) (s s' : RegisterStack)
    (x : Gen α) : Prop :=
  ∀ g₀ g, g₀.Since T own pending g → g.registers = s → Settled T g₀ own s' (x g)

namespace Settles

variable {α β : Type} {T T' : String → Prop} {own pending pending' : List String}
  {s s' s'' : RegisterStack}

theorem pure {a : α} : Settles T own [] s s (Pure.pure a) := fun _ _ h hs => .ok h hs

theorem fault {f : Fault} : Settles T own pending s s' (Gen.fault f : Gen α) :=
  fun _ _ _ _ => .fault

theorem perm {x : Gen α} (hp : pending.Perm pending') (h : Settles T own pending' s s' x) :
    Settles T own pending s s' x := fun g₀ g hg => h g₀ g (hg.perm hp)

/-- A step settles if it does so before one that does nothing. -/
theorem of_bind_pure {x : Gen α} (h : Settles T own pending s s' (x >>= Pure.pure)) :
    Settles T own pending s s' x := by
  rwa [bind_pure] at h

/-- A step that ends in a state with other labels pending, before the steps that place them. -/
theorem bind_of {x : Gen α} {f : α → Gen β} {R : α → Prop}
    (h : ∀ g₀ g : Generator, g₀.Since T own pending g → g.registers = s →
      match x g with
      | .ok a g' => R a ∧ g₀.Since T own pending' g' ∧ g'.registers = s'
      | .error (.error e) g' => e.cause = .registersExhausted ∧
          (∃ pending'', g₀.Since T own pending'' g') ∧ g'.registers.push? = none
      | .error (.fault _) _ => True)
    (hf : ∀ a, R a → Settles T own pending' s' s'' (f a)) :
    Settles T own pending s s'' (x >>= f) := by
  intro g₀ g hg hs
  have hx := h g₀ g hg hs
  show Settled T g₀ own s'' (EStateM.bind x f g)
  unfold EStateM.bind
  cases hr : x g with
  | ok a g' =>
    rw [hr] at hx
    exact hf a hx.1 g₀ g' hx.2.1 hx.2.2
  | error e g' =>
    rw [hr] at hx
    cases e with
    | fault f => exact .fault
    | error e =>
      obtain ⟨p, cause⟩ := e
      obtain ⟨rfl, ⟨pending'', hg'⟩, hpush⟩ := hx
      exact .error hg' hpush

/-- A form inside another one leaves the labels alone that are pending around it. -/
theorem bind {x : Gen α} {f : α → Gen β} (hx : Settles T' [] [] s s' x)
    (hT : ∀ l, T' l → T l ∨ l ∈ own) (hf : ∀ a, Settles T own pending s' s'' (f a)) :
    Settles T own pending s s'' (x >>= f) := by
  refine bind_of (R := fun _ => True) (fun g₀ g hg hs => ?_) fun a _ => hf a
  have hg' := hx g g (.refl T' g) hs
  generalize x g = o at hg' ⊢
  cases hg' with
  | ok h hr => exact ⟨trivial, hg.trans h hT, hr⟩
  | error h hr => exact ⟨rfl, ⟨_, hg.trans h hT⟩, hr⟩
  | fault => trivial

/-- A form inside another one that also goes to one of the own labels. -/
theorem toward_bind {x : Gen α} {f : α → Gen β} {label : String}
    (hx : Settles (fun l => T l ∨ l = label) [] [] s s' x) (hlabel : label ∈ own)
    (hf : ∀ a, Settles T own pending s' s'' (f a)) : Settles T own pending s s'' (x >>= f) :=
  bind hx (fun l hl => hl.imp_right fun h : l = label => h ▸ hlabel) hf

theorem current_bind {f : Reg → Gen β} (h : Settles T own pending s s' (f s.current)) :
    Settles T own pending s s' (current >>= f) :=
  bind_of (R := fun r => r = s.current) (fun _ g hg hs => ⟨by rw [hs], hg, hs⟩)
    fun _ hr => hr ▸ h

/-- A line that places no label and goes nowhere else than to an own label or as `T` allows. -/
theorem append_bind {l : Line} {f : Unit → Gen β} (hlabel : l.inst.label? = none)
    (htarget : ∀ x, l.inst.target? = some x → T x ∨ x ∈ own)
    (h : Settles T own pending s s' (f ())) :
    Settles T own pending s s' (modify (fun g => { g with lines := g.lines.push l }) >>= f) :=
  bind_of (R := fun _ => True) (fun _ _ hg hs => ⟨trivial, hg.append hlabel htarget, hs⟩)
    fun _ _ => h

/-- A line that changes registers or memory only. -/
theorem step_bind {i : Inst} {f : Unit → Gen β} (h : Settles T own pending s s' (f ()))
    (hlabel : i.label? = none := by rfl) (htarget : i.target? = none := by rfl) :
    Settles T own pending s s' (emit i >>= f) :=
  append_bind hlabel (fun x hx => by rw [htarget] at hx; cases hx) h

theorem step {i : Inst} (hlabel : i.label? = none := by rfl)
    (htarget : i.target? = none := by rfl) : Settles T own [] s s (emit i) :=
  of_bind_pure (step_bind pure hlabel htarget)

theorem note_bind {i : Inst} {comment : String} {f : Unit → Gen β}
    (h : Settles T own pending s s' (f ())) (hlabel : i.label? = none := by rfl)
    (htarget : i.target? = none := by rfl) :
    Settles T own pending s s' (emitNoted i comment >>= f) :=
  append_bind hlabel (fun x hx => by rw [htarget] at hx; cases hx) h

theorem note {i : Inst} {comment : String} (hlabel : i.label? = none := by rfl)
    (htarget : i.target? = none := by rfl) : Settles T own [] s s (emitNoted i comment) :=
  of_bind_pure (note_bind pure hlabel htarget)

theorem branch_bind {cond : Cond} {r r' : Reg} {x : String} {f : Unit → Gen β} (hx : T x ∨ x ∈ own)
    (h : Settles T own pending s s' (f ())) :
    Settles T own pending s s' (emit (.branch cond r r' x) >>= f) :=
  append_bind rfl (fun _ hy => Option.some.inj hy ▸ hx) h

theorem branch {cond : Cond} {r r' : Reg} {x : String} (hx : T x ∨ x ∈ own) :
    Settles T own [] s s (emit (.branch cond r r' x)) :=
  of_bind_pure (branch_bind hx pure)

theorem jump_bind {x : String} {f : Unit → Gen β} (hx : T x ∨ x ∈ own)
    (h : Settles T own pending s s' (f ())) :
    Settles T own pending s s' (emit (.jump x) >>= f) :=
  append_bind rfl (fun _ hy => Option.some.inj hy ▸ hx) h

theorem call {x : String} (hx : T x) : Settles T own [] s s (emit (.call x)) :=
  of_bind_pure (append_bind rfl (fun _ hy => .inl (Option.some.inj hy ▸ hx)) pure)

/-- A pending label is placed. -/
theorem place_bind {l : String} {f : Unit → Gen β} (h : Settles T own pending s s' (f ())) :
    Settles T own (l :: pending) s s' (emit (.label l) >>= f) :=
  bind_of (R := fun _ => True) (fun _ _ hg hs => ⟨trivial, hg.place, hs⟩) fun _ _ => h

theorem place {l : String} : Settles T own [l] s s (emit (.label l)) :=
  of_bind_pure (place_bind pure)

/-- A label is drawn: it is an own one from now on, and pending. -/
theorem newLabel_bind {f : String → Gen β}
    (h : ∀ l, Settles T (l :: own) (l :: pending) s s' (f l)) :
    Settles T own pending s s' (newLabel >>= f) := by
  intro g₀ g hg hs
  show Settled T g₀ own s' (EStateM.bind newLabel f g)
  unfold EStateM.bind
  by_cases hlt : g.nextLabel + 1 < UInt32.size
  · rw [newLabel_of_lt hlt]
    have hsettled := h _ g₀ _ hg.draw hs
    have hsub : own ⊆ labelName g.nextLabel :: own := List.subset_cons_self _ _
    dsimp only
    generalize f _ _ = o at hsettled ⊢
    cases hsettled with
    | ok h hr => exact .ok (h.forget hsub) hr
    | error h hr => exact .error (h.forget hsub) hr
    | fault => exact .fault
  · rw [newLabel_of_not_lt hlt]
    exact .fault

/-- A register is taken, or there is none left. -/
theorem push_bind {p : Position} {f : Reg → Gen β}
    (h : ∀ s', s.push? = some s' → Settles T own pending s' s'' (f s'.current)) :
    Settles T own pending s s'' (push p >>= f) := by
  intro g₀ g hg hs
  show Settled T g₀ own s'' (EStateM.bind (push p) f g)
  unfold EStateM.bind
  rw [push_eq, hs]
  cases hs' : s.push? with
  | some s' => exact h s' hs' g₀ _ (hg.congr rfl rfl) rfl
  | none => exact .error hg (hs ▸ hs')

/-- A register that was taken is given back. -/
theorem pop_bind {f : Unit → Gen β} (hs : s'.push? = some s)
    (h : Settles T own pending s' s'' (f ())) : Settles T own pending s s'' (Spl.pop >>= f) := by
  refine bind_of (R := fun _ => True) (fun g₀ g hg hr => ?_) fun _ _ => h
  rw [pop_of_push? (by rw [hr, hs])]
  exact ⟨trivial, hg.congr rfl rfl, rfl⟩

theorem pop (hs : s'.push? = some s) : Settles T own [] s s' Spl.pop :=
  of_bind_pure (pop_bind hs pure)

theorem lift_bind {x : Except Fault α} {f : α → Gen β}
    (h : ∀ a, x = .ok a → Settles T own pending s s' (f a)) :
    Settles T own pending s s' ((liftM x : Gen α) >>= f) := by
  cases x with
  | ok a => exact h a rfl
  | error f => exact fun _ _ _ _ => .fault

end Settles

/-! ## Expressions and designators -/

section

variable {T : String → Prop} {t : SymbolTable} {a : Addressing} {s : RegisterStack}

theorem branchUnlessHolds_settles {p : Position} {op : Comparison} {left right : Gen Unit}
    {label : String} (hl : ∀ s, Settles T [] [] s s left) (hr : ∀ s, Settles T [] [] s s right) :
    Settles (fun l => T l ∨ l = label) [] [] s s (branchUnlessHolds p op left right label) := by
  unfold branchUnlessHolds
  refine .current_bind (.bind (hl s) (fun _ h => .inl (.inl h)) fun _ =>
    .push_bind fun s' hs' => ?_)
  exact .bind (hr s') (fun _ h => .inl (.inl h)) fun _ => .pop_bind hs' (.branch (.inl (.inr rfl)))

mutual

/-- The address of a designator. -/
theorem Designator.address_settles (hT : T indexErrorRoutine) : ∀ (d : Designator)
    (s : RegisterStack), Settles T [] [] s s (d.address t a)
  | .named p name slot, s => by
    unfold Designator.address
    refine .current_bind (.lift_bind fun v _ => ?_)
    cases v.offset with
    | none => exact .fault
    | some offset =>
      refine .lift_bind fun w _ => .step_bind ?_
      cases v.isReference with
      | true => exact .step
      | false => exact .pure
  | .element p array index slot, s => by
    unfold Designator.address
    refine .current_bind (.lift_bind fun _ _ => .lift_bind fun _ _ => ?_)
    refine .bind (array.address_settles hT s) (fun _ => .inl) fun _ => .push_bind fun s' hs' => ?_
    refine .bind (index.value_settles hT s') (fun _ => .inl) fun _ => .push_bind fun s'' hs'' => ?_
    refine .step_bind (.branch_bind (.inl hT) (.pop_bind hs'' ?_))
    exact .lift_bind fun _ _ => .step_bind (.pop_bind hs' .step)
  | .field p record name slot, s => by
    unfold Designator.address
    refine .current_bind (.lift_bind fun _ _ => .lift_bind fun w _ => ?_)
    refine .bind (record.address_settles hT s) (fun _ => .inl) fun _ => ?_
    by_cases h0 : w ≠ 0
    · rw [if_pos h0]
      exact .step
    · rw [if_neg h0]
      exact .pure

/-- The value of an expression. -/
theorem Expr.value_settles (hT : T indexErrorRoutine) : ∀ (e : Expr) (s : RegisterStack),
    Settles T [] [] s s (e.value t a)
  | .literal p value slot, s => by
    unfold Expr.value
    exact .current_bind .step
  | .unary p .minus operand slot, s => by
    unfold Expr.value
    exact .current_bind (.bind (operand.value_settles hT s) (fun _ => .inl) fun _ => .step)
  | .binary p (.compare op) left right slot, s => by
    unfold Expr.value
    refine .current_bind (.newLabel_bind fun otherwise => .newLabel_bind fun done => ?_)
    refine .toward_bind (branchUnlessHolds_settles (left.value_settles hT) (right.value_settles hT))
      (.tail _ (.head _)) fun _ => ?_
    refine .step_bind (.jump_bind (.inr (.head _)) (.perm (.swap _ _ _) (.place_bind ?_)))
    exact .step_bind .place
  | .binary p (.arith op) left right slot, s => by
    unfold Expr.value
    refine .current_bind (.bind (left.value_settles hT s) (fun _ => .inl) fun _ =>
      .push_bind fun s' hs' => ?_)
    exact .bind (right.value_settles hT s') (fun _ => .inl) fun _ => .pop_bind hs' .step
  | .designator p target slot, s => by
    unfold Expr.value
    exact .current_bind (.bind (target.address_settles hT s) (fun _ => .inl) fun _ => .step)

end

/-! ## Conditions and calls -/

theorem Expr.branchUnless_settles (hT : T indexErrorRoutine) (e : Expr) (label : String) :
    Settles (fun l => T l ∨ l = label) [] [] s s (e.branchUnless t a label) := by
  cases hc : e.isCompare with
  | false =>
    rw [branchUnless_of_not_isCompare hc]
    exact .current_bind (.bind (e.value_settles hT s) (fun _ h => .inl (.inl h)) fun _ =>
      .branch (.inl (.inr rfl)))
  | true =>
    cases e with
    | binary p op l r slot =>
      cases op with
      | compare op => exact branchUnlessHolds_settles (l.value_settles hT) (r.value_settles hT)
      | arith op => cases hc
    | literal p value slot => cases hc
    | unary p op e slot => cases hc
    | designator p d slot => cases hc

theorem Expr.argument_settles (hT : T indexErrorRoutine) (c : Call) (number : Nat) (v : Variable)
    (e : Expr) : Settles T [] [] s s (e.argument t a c number v) := by
  unfold argument
  cases v.isReference with
  | false => exact e.value_settles hT s
  | true =>
    cases e.designator? with
    | some d => exact d.address_settles hT s
    | none => exact .fault

theorem Call.storeArguments_settles (hT : T indexErrorRoutine) (c : Call) :
    ∀ (es : List Expr) (vs : List Variable) (index : Nat),
      Settles T [] [] s s (c.storeArguments t a index es vs)
  | e :: es, v :: vs, index => by
    unfold storeArguments
    refine .bind (e.argument_settles hT c (index + 1) v) (fun _ => .inl) fun _ => ?_
    cases v.offset with
    | none => exact .fault
    | some offset =>
      exact .current_bind (.note_bind (storeArguments_settles hT c es vs (index + 1)))
  | [], _, _ => by
    unfold storeArguments
    exact .pure
  | _ :: _, [], _ => by
    unfold storeArguments
    exact .pure

theorem Call.code_settles (hT : T indexErrorRoutine) {c : Call} (hc : T c.procedure) :
    Settles T [] [] s s (c.code t a) := by
  unfold Call.code
  cases t.procedure? c.procedure with
  | none => exact .fault
  | some P => exact .bind (c.storeArguments_settles hT _ _ 0) (fun _ => .inl) fun _ => .call hc

/-! ## Statements -/

mutual

/-- The code of a statement. -/
theorem Stmt.code_settles (hT : T indexErrorRoutine) : ∀ (st : Stmt) (s : RegisterStack),
    (∀ c ∈ st.calls, T c.procedure) → Settles T [] [] s s (st.code t a)
  | .assign p target value, s, _ => by
    unfold Stmt.code
    refine .current_bind (.bind (target.address_settles hT s) (fun _ => .inl) fun _ =>
      .push_bind fun s' hs' => ?_)
    exact .bind (value.value_settles hT s') (fun _ => .inl) fun _ => .step_bind (.pop hs')
  | .ifElse p condition thenPart elsePart, s, hcalls => by
    rw [Stmt.calls] at hcalls
    have hthen := thenPart.code_settles hT s fun c hc => hcalls c (List.mem_append_left _ hc)
    have helse := elsePart.code_settles hT s fun c hc => hcalls c (List.mem_append_right _ hc)
    unfold Stmt.code
    cases elsePart.isEmpty with
    | true =>
      rw [if_pos rfl]
      refine .newLabel_bind fun done => ?_
      refine .toward_bind (condition.branchUnless_settles hT done) (.head _) fun _ => ?_
      exact .bind hthen (fun _ => .inl) fun _ => .place
    | false =>
      rw [if_neg Bool.false_ne_true]
      refine .newLabel_bind fun otherwise => ?_
      refine .toward_bind (condition.branchUnless_settles hT otherwise) (.head _) fun _ => ?_
      refine .bind hthen (fun _ => .inl) fun _ => .newLabel_bind fun done => ?_
      refine .jump_bind (.inr (.head _)) (.perm (.swap _ _ _) (.place_bind ?_))
      exact .bind helse (fun _ => .inl) fun _ => .place
  | .whileDo p condition body, s, hcalls => by
    rw [Stmt.calls] at hcalls
    unfold Stmt.code
    refine .newLabel_bind fun start => .newLabel_bind fun done => ?_
    refine .perm (.swap _ _ _) (.place_bind ?_)
    refine .toward_bind (condition.branchUnless_settles hT done) (.head _) fun _ => ?_
    refine .bind (body.code_settles hT s hcalls) (fun _ => .inl) fun _ => ?_
    exact .jump_bind (.inr (.tail _ (.head _))) .place
  | .call c, s, hcalls => by
    rw [Stmt.calls] at hcalls
    unfold Stmt.code
    exact c.code_settles hT (hcalls c (.head _))
  | .compound p statements, s, hcalls => by
    rw [Stmt.calls] at hcalls
    unfold Stmt.code
    exact Stmt.codeOf_settles hT statements s hcalls
  | .empty p, s, _ => by
    unfold Stmt.code
    exact .pure

/-- The code of a list of statements. -/
theorem Stmt.codeOf_settles (hT : T indexErrorRoutine) : ∀ (ss : List Stmt) (s : RegisterStack),
    (∀ c ∈ Stmt.callsOf ss, T c.procedure) → Settles T [] [] s s (Stmt.codeOf t a ss)
  | [], s, _ => by
    unfold Stmt.codeOf
    exact .pure
  | st :: ss, s, hcalls => by
    rw [Stmt.callsOf] at hcalls
    unfold Stmt.codeOf
    refine .bind (st.code_settles hT s fun c hc => hcalls c (List.mem_append_left _ hc))
      (fun _ => .inl) fun _ => ?_
    exact Stmt.codeOf_settles hT ss s fun c hc => hcalls c (List.mem_append_right _ hc)

end

end

end Spl
