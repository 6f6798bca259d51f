import Spl.Proofs.Code.Shape
import Spl.Proofs.Step
import Spl.Proofs.Typing.Judgement
import Spl.Proofs.Word

/-!
# Generating the code of bodies

The code of a well-typed form in a table where everything is placed: the lines that it consists of
are appended, its labels are taken, and the registers are left as they were. Code generation fails
only when it runs out of registers, or when a sum overflows: the number of a label, or the distance
to a variable.

* `Ready`: all that the names of a body stand for is placed.
* `CodeRoom`: no sum overflows.
* `Designator.address_ends`, `Expr.value_ends`, `Expr.branchUnless_ends`: parts of statements.
* `Stmt.CodeEnds`: one lemma for each kind of statement.
* `Stmt.code_ends`, `Stmt.codeOf_ends`: statements.
-/

namespace Spl

variable {A : Prop} {t : SymbolTable} {a : Addressing}

/-- The failures of code generation where sums may overflow if `A` holds. -/
def CodeFailure (A : Prop) : Failure CodegenError → Prop
  | .error e => e.cause = .registersExhausted
  | .fault f => f = .overflow .addition ∧ A

/-! ## Steps -/

namespace Generator

/-- The state after code has been appended that takes the given number of labels. -/
def add (g : Generator) (labels : Nat) (code : List Line) : Generator :=
  { g with nextLabel := g.nextLabel + labels, lines := g.lines ++ code }

/-- The state with the given registers in use. -/
def withRegisters (g : Generator) (s : RegisterStack) : Generator := { g with registers := s }

variable {g : Generator} {s s' : RegisterStack} {m n : Nat} {c d : List Line}

@[simp]
theorem add_registers : (g.add n c).registers = g.registers := rfl

@[simp]
theorem add_nextLabel : (g.add n c).nextLabel = g.nextLabel + n := rfl

@[simp]
theorem withRegisters_registers : (g.withRegisters s).registers = s := rfl

@[simp]
theorem withRegisters_nextLabel : (g.withRegisters s).nextLabel = g.nextLabel := rfl

@[simp]
theorem withRegisters_withRegisters : (g.withRegisters s).withRegisters s' = g.withRegisters s' :=
  rfl

@[simp]
theorem add_withRegisters : (g.add n c).withRegisters s = (g.withRegisters s).add n c := rfl

@[simp]
theorem withRegisters_self : g.withRegisters g.registers = g := rfl

@[simp]
theorem add_add : (g.add m c).add n d = g.add (m + n) (c ++ d) := by
  have hl : g.lines ++ c ++ d = g.lines ++ (c ++ d) := Array.ext' (by simp)
  simp only [add, Nat.add_assoc, hl]

theorem add_zero_nil : g.add 0 [] = g := by
  simp [add]

end Generator

namespace Ends

variable {β : Type} {R : β → Generator → Prop} {g : Generator} {E : Failure CodegenError → Prop}

theorem current_bind {f : Reg → Gen β} (h : Ends E R (f g.registers.current) g) :
    Ends E R (current >>= f) g := h

theorem append_bind {l : Line} {f : Unit → Gen β} (h : Ends E R (f ()) (g.add 0 [l])) :
    Ends E R (modify (fun g => { g with lines := g.lines.push l }) >>= f) g := by
  refine .modify_bind ?_
  have he : ({ g with lines := g.lines.push l } : Generator) = g.add 0 [l] := by
    simp [Generator.add]
  rw [he]
  exact h

theorem emit_bind {i : Inst} {f : Unit → Gen β} (h : Ends E R (f ()) (g.add 0 [plain i])) :
    Ends E R (emit i >>= f) g := append_bind h

theorem emitNoted_bind {i : Inst} {comment : String} {f : Unit → Gen β}
    (h : Ends E R (f ()) (g.add 0 [noted i comment])) :
    Ends E R (emitNoted i comment >>= f) g := append_bind h

theorem emit {Q : Unit → Generator → Prop} {i : Inst} (h : Q () (g.add 0 [plain i])) :
    Ends E Q (emit i) g := by
  have h' : Ends E Q (Spl.emit i >>= Pure.pure) g := .emit_bind h
  rwa [bind_pure] at h'

theorem emitNoted {Q : Unit → Generator → Prop} {i : Inst} {comment : String}
    (h : Q () (g.add 0 [noted i comment])) : Ends E Q (Spl.emitNoted i comment) g := by
  have h' : Ends E Q (Spl.emitNoted i comment >>= Pure.pure) g := .emitNoted_bind h
  rwa [bind_pure] at h'

theorem lift_gen_bind {α : Type} {x : Except Fault α} {v : α} {f : α → Gen β} (hx : x = .ok v)
    (h : Ends E R (f v) g) : Ends E R ((liftM x : Gen α) >>= f) g := by
  subst hx
  exact h

/-- A register is taken, or there is none left. -/
theorem push_bind {p : Position} {f : Reg → Gen β}
    (h : ∀ s, g.registers.push? = some s →
      Ends (CodeFailure A) R (f s.current) (g.withRegisters s)) :
    Ends (CodeFailure A) R (push p >>= f) g := by
  unfold push
  rw [bind_assoc]
  refine .get_bind ?_
  cases hs : g.registers.push? with
  | some s => exact h s hs
  | none => exact show CodegenError.registersExhausted = _ from rfl

/-- A register that was taken is given back. -/
theorem pop_bind {s : RegisterStack} {f : Unit → Gen β} (hs : s.push? = some g.registers)
    (h : Ends E R (f ()) (g.withRegisters s)) : Ends E R (pop >>= f) g := by
  unfold pop
  rw [bind_assoc]
  refine .get_bind ?_
  rw [bind_assoc]
  exact .lift_gen_bind (RegisterStack.pop_of_push? hs) h

theorem pop {Q : Unit → Generator → Prop} {s : RegisterStack} (hs : s.push? = some g.registers)
    (h : Q () (g.withRegisters s)) : Ends E Q pop g := by
  have h' : Ends E Q (Spl.pop >>= Pure.pure) g := .pop_bind hs h
  rwa [bind_pure] at h'

/-- A label is taken, unless their count overflows. -/
theorem newLabel_bind {f : String → Gen β} (hroom : g.nextLabel + 1 < UInt32.size ∨ A)
    (h : Ends (CodeFailure A) R (f (labelName g.nextLabel)) (g.add 1 [])) :
    Ends (CodeFailure A) R (newLabel >>= f) g := by
  unfold newLabel
  rw [bind_assoc]
  refine .get_bind ?_
  by_cases hlt : g.nextLabel + 1 < UInt32.size
  · rw [if_pos hlt]
    have he : ({ g with nextLabel := g.nextLabel + 1 } : Generator) = g.add 1 [] := by
      simp [Generator.add]
    rw [← he] at h
    exact h
  · rw [if_neg hlt]
    exact ⟨rfl, hroom.resolve_left hlt⟩

end Ends

/-! ## What code generation relies on -/

/-- All that the names of a body stand for has its place, and all variables have types that fit. -/
structure Ready (t : SymbolTable) (a : Addressing) : Prop where
  fits : (t.typeEnv a.scope).Fits
  offsets : ∀ name v, variableAt t a.scope name = .ok v → ∃ w, v.offset = some w
  procedures : ∀ name views, (t.typeEnv a.scope).signature? name = some views →
    ∃ Q, t.procedure? name = some Q ∧ Q.parameters.map Variable.view = views ∧
      ∀ v ∈ Q.parameters, ∃ w, v.offset = some w

/-- No sum of code generation overflows: not the numbers of the labels, and not the distances to the
variables that are named. -/
structure CodeRoom (t : SymbolTable) (a : Addressing) (n labels : Nat) (names : List String) :
    Prop where
  labels : n + labels < UInt32.size
  distances : ∀ name ∈ names, ∀ v offset, variableAt t a.scope name = .ok v →
    v.offset = some offset → ∃ w, a.bias.sum offset = .ok w

theorem CodeRoom.mono {n n' k k' : Nat} {l l' : List String} (h : CodeRoom t a n k l)
    (hk : n' + k' ≤ n + k) (hl : l' ⊆ l) : CodeRoom t a n' k' l' :=
  ⟨Nat.lt_of_le_of_lt hk h.labels, fun name hn => h.distances name (hl hn)⟩

theorem variableAt_eq {name : String} {ty : Ty} {ref : Bool}
    (h : (t.typeEnv a.scope).var? name = some (ty, ref)) :
    ∃ v, variableAt t a.scope name = .ok v ∧ v.view = (ty, ref) := by
  have h' : ((t.find? a.scope name).bind Entry.var?).map Variable.view = some (ty, ref) := h
  rw [Option.map_eq_some_iff] at h'
  obtain ⟨v, hv, hview⟩ := h'
  exact ⟨v, by rw [variableAt, hv], hview⟩

/-! ## Expressions and designators -/

mutual

/-- The code of the address of a designator. -/
theorem Designator.address_ends (hR : Ready t a) : ∀ {d : Designator} {ty : Ty} {g : Generator},
    d.HasType (t.typeEnv a.scope) ty → CodeRoom t a g.nextLabel d.labels d.names ∨ A →
    Ends (CodeFailure A) (fun _ g' => ∃ code, d.AddressCode t a g.registers g.nextLabel code ∧
      g' = g.add d.labels code) (d.address t a) g
  | _, _, g, @Designator.HasType.named _ p name ty _ hE, hroom => by
    obtain ⟨v, hv, -⟩ := variableAt_eq hE
    obtain ⟨offset, ho⟩ := hR.offsets name v hv
    unfold Designator.address
    refine .current_bind (.lift_gen_bind hv ?_)
    rw [ho]
    dsimp only
    cases hs : a.bias.sum offset with
    | error f =>
      refine show f = _ ∧ A from ⟨(Word.exact_eq_error_iff.1 hs).2, hroom.resolve_left fun h => ?_⟩
      obtain ⟨w, hw⟩ := h.distances name (.head _) v offset hv ho
      rw [hs] at hw
      cases hw
    | ok distance =>
      refine .lift_gen_bind rfl (.emit_bind ?_)
      have hcode := @Designator.AddressCode.named t a g.registers g.nextLabel p name ⟨some ty⟩ v
        offset distance hv ho hs
      cases hr : v.isReference with
      | true =>
        rw [hr] at hcode
        exact .emit ⟨_, hcode, by simp [Designator.labels]⟩
      | false =>
        rw [hr] at hcode
        exact .pure ⟨_, hcode, rfl⟩
  | _, ty, g, @Designator.HasType.element _ _ array index length _ ha hi, hroom => by
    obtain ⟨size, hsize, -⟩ := Ty.byteSize_of_fits (Designator.HasType.fits hR.fits ha).base
    unfold Designator.address
    refine .current_bind (.lift_gen_bind ha.type_eq (.lift_gen_bind rfl ?_))
    have hroom₁ : CodeRoom t a g.nextLabel array.labels array.names ∨ A :=
      hroom.imp_left fun h => h.mono (by rw [Designator.labels]; omega) (by simp [Designator.names])
    have hroom₂ : CodeRoom t a (g.nextLabel + array.labels) index.labels index.names ∨ A :=
      hroom.imp_left fun h => h.mono (by rw [Designator.labels]; omega) (by simp [Designator.names])
    refine (Designator.address_ends hR ha hroom₁).bind ?_
    intro _ _ hrun
    obtain ⟨ac, hac, rfl⟩ := hrun
    refine .push_bind fun s' hs' => ?_
    refine (Expr.value_ends hR hi hroom₂).bind ?_
    intro _ _ hrun
    obtain ⟨ic, hic, rfl⟩ := hrun
    refine .push_bind fun s'' hs'' => .emit_bind (.emit_bind (.pop_bind hs'' ?_))
    exact .lift_gen_bind hsize (.emit_bind (.pop_bind hs' (.emit
      ⟨_, .element ha.type_eq hsize hs' hs'' hac hic, by simp [Designator.labels]⟩)))
  | _, _, g, @Designator.HasType.field _ p record name fields ty hr hf, hroom => by
    obtain ⟨offset, ho, -⟩ := Ty.fieldOffset_of_fits (Designator.HasType.fits hR.fits hr) hf
    have ho' : offsetInRecord name (.record fields) = .ok offset := by
      simp only [offsetInRecord, ho]
      rfl
    unfold Designator.address
    refine .current_bind (.lift_gen_bind hr.type_eq (.lift_gen_bind ho' ?_))
    refine (Designator.address_ends hR hr hroom).bind ?_
    intro _ _ hrun
    obtain ⟨rc, hrc, rfl⟩ := hrun
    have hcode := @Designator.AddressCode.field t a g.registers g.nextLabel p record name
      ⟨some ty⟩ _ offset rc hr.type_eq ho' hrc
    by_cases h0 : offset = 0
    · rw [if_neg (by simpa using h0)] at hcode ⊢
      exact .pure ⟨_, hcode, by simp [Designator.labels]⟩
    · rw [if_pos h0] at hcode ⊢
      exact .emit ⟨_, hcode, by simp [Designator.labels]⟩

/-- The code of the value of an expression. -/
theorem Expr.value_ends (hR : Ready t a) : ∀ {e : Expr} {ty : Ty} {g : Generator},
    e.HasType (t.typeEnv a.scope) ty → CodeRoom t a g.nextLabel e.labels e.names ∨ A →
    Ends (CodeFailure A) (fun _ g' => ∃ code, e.ValueCode t a g.registers g.nextLabel code ∧
      g' = g.add e.labels code) (e.value t a) g
  | _, _, g, .literal, hroom => by
    unfold Expr.value
    exact .current_bind (.emit ⟨_, .literal, rfl⟩)
  | _, _, g, .designator h, hroom => by
    unfold Expr.value
    refine .current_bind ((Designator.address_ends hR h hroom).bind ?_)
    intro _ _ hrun
    obtain ⟨dc, hd, rfl⟩ := hrun
    exact .emit ⟨_, .designator hd, by simp [Expr.labels]⟩
  | _, _, g, @Expr.HasType.unary _ _ .minus _ _ h hb, hroom => by
    unfold Expr.value
    refine .current_bind ((Expr.value_ends hR h hroom).bind ?_)
    intro _ _ hrun
    obtain ⟨ec, he, rfl⟩ := hrun
    exact .emit ⟨_, .unary he, by simp [Expr.labels]⟩
  | _, _, g, @Expr.HasType.arith _ _ _ l r _ hl hr, hroom => by
    unfold Expr.value
    have hroom₁ : CodeRoom t a g.nextLabel l.labels l.names ∨ A :=
      hroom.imp_left fun h => h.mono (by rw [Expr.labels]; omega) (by simp [Expr.names])
    have hroom₂ : CodeRoom t a (g.nextLabel + l.labels) r.labels r.names ∨ A :=
      hroom.imp_left fun h => h.mono (by rw [Expr.labels]; omega) (by simp [Expr.names])
    refine .current_bind ((Expr.value_ends hR hl hroom₁).bind ?_)
    intro _ _ hrun
    obtain ⟨lc, hlc, rfl⟩ := hrun
    refine .push_bind fun s' hs' => ?_
    refine (Expr.value_ends hR hr hroom₂).bind ?_
    intro _ _ hrun
    obtain ⟨rc, hrc, rfl⟩ := hrun
    exact .pop_bind hs' (.emit ⟨_, .arith hs' hlc hrc, by simp [Expr.labels]⟩)
  | _, _, g, @Expr.HasType.compare _ p op l r _ hl hr, hroom => by
    have hroom₀ : g.nextLabel + 2 + l.labels + r.labels < UInt32.size ∨ A :=
      hroom.imp_left fun h => by
        have hlt := h.labels
        rw [Expr.labels] at hlt
        omega
    have hroom₁ : CodeRoom t a (g.nextLabel + 2) l.labels l.names ∨ A :=
      hroom.imp_left fun h => h.mono (by rw [Expr.labels]; omega) (by simp [Expr.names])
    have hroom₂ : CodeRoom t a (g.nextLabel + 2 + l.labels) r.labels r.names ∨ A :=
      hroom.imp_left fun h => h.mono (by rw [Expr.labels]; omega) (by simp [Expr.names])
    unfold Expr.value
    refine .current_bind (.newLabel_bind (hroom₀.imp_left fun h => by omega) ?_)
    refine .newLabel_bind (hroom₀.imp_left fun h => ?_) ?_
    · rw [Generator.add_nextLabel]
      omega
    unfold branchUnlessHolds
    simp only [bind_assoc, Generator.add_add]
    refine .current_bind ((Expr.value_ends hR hl hroom₁).bind ?_)
    intro _ _ hrun
    obtain ⟨lc, hlc, rfl⟩ := hrun
    refine .push_bind fun s' hs' => ?_
    refine (Expr.value_ends hR hr hroom₂).bind ?_
    intro _ _ hrun
    obtain ⟨rc, hrc, rfl⟩ := hrun
    exact .pop_bind hs' (.emit_bind (.emit_bind (.emit_bind (.emit_bind (.emit_bind (.emit
      ⟨_, .compare hs' hlc hrc, by simp [Expr.labels, Nat.add_assoc]⟩))))))

end

/-! ## Conditions and calls -/

/-- A condition that is no comparison is computed and compared with zero. -/
theorem Expr.branchUnless_of_not_isCompare {e : Expr} (h : e.isCompare = false) (label : String) :
    e.branchUnless t a label = (do
      let r ← current
      e.value t a
      emit (.branch .eq r .zero label)) := by
  cases e with
  | binary p op l r slot =>
    cases op with
    | arith op => rfl
    | compare op => cases h
  | unary p op e slot => rfl
  | literal p v slot => rfl
  | designator p d slot => rfl

/-- The code of a condition. -/
theorem Expr.branchUnless_ends (hR : Ready t a) {e : Expr} {g : Generator} (label : String)
    {ty : Ty} (h : e.HasType (t.typeEnv a.scope) ty)
    (hroom : CodeRoom t a g.nextLabel e.branchLabels e.names ∨ A) :
    Ends (CodeFailure A)
      (fun _ g' => ∃ code, e.BranchCode t a label g.registers g.nextLabel code ∧
        g' = g.add e.branchLabels code)
      (e.branchUnless t a label) g := by
  cases hc : e.isCompare with
  | false =>
    rw [branchLabels_of_not_isCompare hc] at hroom ⊢
    rw [branchUnless_of_not_isCompare hc]
    refine .current_bind ((e.value_ends hR h hroom).bind ?_)
    intro _ _ hrun
    obtain ⟨ec, he, rfl⟩ := hrun
    exact .emit ⟨_, .value hc he, by simp⟩
  | true =>
    cases h with
    | @compare p op l r _ hl hr =>
      have hroom₁ : CodeRoom t a g.nextLabel l.labels l.names ∨ A :=
        hroom.imp_left fun h => h.mono (by rw [branchLabels]; omega) (by simp [names])
      have hroom₂ : CodeRoom t a (g.nextLabel + l.labels) r.labels r.names ∨ A :=
        hroom.imp_left fun h => h.mono (by rw [branchLabels]; omega) (by simp [names])
      unfold branchUnless branchUnlessHolds
      refine .current_bind ((l.value_ends hR hl hroom₁).bind ?_)
      intro _ _ hrun
      obtain ⟨lc, hlc, rfl⟩ := hrun
      refine .push_bind fun s' hs' => ?_
      refine (r.value_ends hR hr hroom₂).bind ?_
      intro _ _ hrun
      obtain ⟨rc, hrc, rfl⟩ := hrun
      exact .pop_bind hs' (.emit ⟨_, .compare hs' hlc hrc, by simp [branchLabels]⟩)
    | literal => cases hc
    | designator _ => cases hc
    | unary _ _ => cases hc
    | arith _ _ => cases hc

/-- The code of one argument: a value or an address. -/
theorem Expr.argument_ends (hR : Ready t a) {c : Call} {number : Nat} {v : Variable} {e : Expr}
    {g : Generator} (h : e.Suits (t.typeEnv a.scope) v.view)
    (hroom : CodeRoom t a g.nextLabel e.labels e.names ∨ A) :
    Ends (CodeFailure A) (fun _ g' => ∃ code, g' = g.add e.labels code ∧
        (v.isReference = false ∧ e.ValueCode t a g.registers g.nextLabel code ∨
          v.isReference = true ∧ ∃ p d slot, e = .designator p d slot ∧
            d.AddressCode t a g.registers g.nextLabel code))
      (e.argument t a c number v) g := by
  unfold argument
  obtain ⟨hty, hd⟩ := h
  cases hr : v.isReference with
  | false =>
    refine (e.value_ends hR hty hroom).mono ?_
    intro _ _ hrun
    obtain ⟨code, hcode, rfl⟩ := hrun
    exact ⟨code, rfl, .inl ⟨rfl, hcode⟩⟩
  | true =>
    have hsome := hd hr
    generalize v.view.1 = ty at hty
    cases hty with
    | @designator p d _ hdt =>
      refine (Designator.address_ends hR hdt hroom).mono ?_
      intro _ _ hrun
      obtain ⟨code, hcode, rfl⟩ := hrun
      exact ⟨code, rfl, .inr ⟨rfl, p, d, _, rfl, hcode⟩⟩
    | literal => cases hsome
    | unary _ _ => cases hsome
    | arith _ _ => cases hsome
    | compare _ _ => cases hsome

/-- The code that stores the arguments of a call. -/
theorem Call.storeArguments_ends (hR : Ready t a) {c : Call} : ∀ {es : List Expr}
    {vs : List Variable} {index : Nat} {g : Generator},
    List.Forall₂ (Expr.Suits (t.typeEnv a.scope)) es (vs.map Variable.view) →
    (∀ v ∈ vs, ∃ w, v.offset = some w) →
    CodeRoom t a g.nextLabel (Expr.labelsOf es) (es.flatMap Expr.names) ∨ A →
    Ends (CodeFailure A)
      (fun _ g' => ∃ code, Call.ArgumentsCode t a g.registers g.nextLabel index es vs code ∧
        g' = g.add (Expr.labelsOf es) code)
      (c.storeArguments t a index es vs) g
  | [], [], index, g, _, _, _ => ⟨[], .nil, Generator.add_zero_nil.symm⟩
  | e :: es, v :: vs, index, g, h, ho, hroom => by
    rw [List.map_cons, List.forall₂_cons] at h
    obtain ⟨offset, hoff⟩ := ho v (.head _)
    have hroom₁ : CodeRoom t a g.nextLabel e.labels e.names ∨ A :=
      hroom.imp_left fun h => h.mono (by rw [Expr.labelsOf]; omega)
        (by simp [List.flatMap_cons])
    have hroom₂ : CodeRoom t a (g.nextLabel + e.labels) (Expr.labelsOf es)
        (es.flatMap Expr.names) ∨ A :=
      hroom.imp_left fun h => h.mono (by rw [Expr.labelsOf]; omega)
        (by simp [List.flatMap_cons])
    unfold storeArguments
    refine (e.argument_ends hR h.1 hroom₁).bind ?_
    intro _ _ hrun
    obtain ⟨ec, rfl, hec⟩ := hrun
    rw [hoff]
    refine .current_bind (.emitNoted_bind ?_)
    rw [Generator.add_add, Nat.add_zero]
    refine (storeArguments_ends hR h.2 (fun w hw => ho w (.tail _ hw)) hroom₂).mono ?_
    intro _ _ hrun
    obtain ⟨code, hcode, rfl⟩ := hrun
    rcases hec with ⟨hr, hec⟩ | ⟨hr, p, d, slot, rfl, hec⟩
    · exact ⟨_, .value hr hoff hec hcode, by simp [Expr.labelsOf]⟩
    · exact ⟨_, .reference hr hoff hec hcode, by simp [Expr.labels, Expr.labelsOf]⟩

/-! ## Statements -/

/-- From every state with room for its labels and distances, the code of a statement is generated,
or the generation fails as it may. -/
def Stmt.CodeEnds (t : SymbolTable) (a : Addressing) (A : Prop) (s : Stmt) : Prop :=
  ∀ g : Generator, CodeRoom t a g.nextLabel s.labels s.names ∨ A →
    Ends (CodeFailure A) (fun _ g' => ∃ code, s.Code t a g.registers g.nextLabel code ∧
      g' = g.add s.labels code) (s.code t a) g

namespace Stmt.CodeEnds

variable {p : Position} {e : Expr} {s s₁ s₂ : Stmt}

theorem assign (hR : Ready t a) {d : Designator} {ty : Ty} (hd : d.HasType (t.typeEnv a.scope) ty)
    (he : e.HasType (t.typeEnv a.scope) ty) : CodeEnds t a A (.assign p d e) := by
  intro g hroom
  have hroom₁ : CodeRoom t a g.nextLabel d.labels d.names ∨ A :=
    hroom.imp_left fun h => h.mono (by rw [labels]; omega) (by simp [names])
  have hroom₂ : CodeRoom t a (g.nextLabel + d.labels) e.labels e.names ∨ A :=
    hroom.imp_left fun h => h.mono (by rw [labels]; omega) (by simp [names])
  unfold code
  refine .current_bind ((Designator.address_ends hR hd hroom₁).bind ?_)
  intro _ _ hrun
  obtain ⟨dc, hdc, rfl⟩ := hrun
  refine .push_bind fun s' hs' => ((Expr.value_ends hR he hroom₂).bind ?_)
  intro _ _ hrun
  obtain ⟨ec, hec, rfl⟩ := hrun
  exact .emit_bind (.pop hs' ⟨_, .assign hs' hdc hec, by simp [labels]⟩)

/-- The code of a condition, and behind it that of the statement that it guards. -/
theorem guarded_bind (hR : Ready t a) (he : e.HasType (t.typeEnv a.scope) .bool)
    (hs : CodeEnds t a A s) {g : Generator} {label : String} {f : Unit → Gen Unit}
    {R : Unit → Generator → Prop}
    (hroom : CodeRoom t a g.nextLabel (e.branchLabels + s.labels) (e.names ++ s.names) ∨ A)
    (h : ∀ ec c, e.BranchCode t a label g.registers g.nextLabel ec →
      s.Code t a g.registers (g.nextLabel + e.branchLabels) c →
      Ends (CodeFailure A) R (f ()) (g.add (e.branchLabels + s.labels) (ec ++ c))) :
    Ends (CodeFailure A) R (e.branchUnless t a label >>= fun _ => s.code t a >>= f) g := by
  have hroom₁ : CodeRoom t a g.nextLabel e.branchLabels e.names ∨ A :=
    hroom.imp_left fun h => h.mono (by omega) (by simp)
  have hroom₂ : CodeRoom t a (g.nextLabel + e.branchLabels) s.labels s.names ∨ A :=
    hroom.imp_left fun h => h.mono (by omega) (by simp)
  refine (Expr.branchUnless_ends hR label he hroom₁).bind ?_
  intro _ _ hrun
  obtain ⟨ec, hec, rfl⟩ := hrun
  refine (hs _ hroom₂).bind ?_
  intro _ _ hrun
  obtain ⟨c, hc, rfl⟩ := hrun
  rw [Generator.add_add]
  exact h ec c hec hc

theorem ifThen (hR : Ready t a) (hempty : s₂.isEmpty = true)
    (he : e.HasType (t.typeEnv a.scope) .bool) (h₁ : CodeEnds t a A s₁) :
    CodeEnds t a A (.ifElse p e s₁ s₂) := by
  intro g hroom
  have hcount : (Stmt.ifElse p e s₁ s₂).labels = 1 + e.branchLabels + s₁.labels := by
    simp [labels, hempty, labels_of_isEmpty hempty]
  rw [hcount] at hroom ⊢
  have hlabel : g.nextLabel + 1 < UInt32.size ∨ A := hroom.imp_left fun h => by
    have hlt := h.labels
    omega
  have hroom₁ : CodeRoom t a (g.nextLabel + 1) (e.branchLabels + s₁.labels)
      (e.names ++ s₁.names) ∨ A :=
    hroom.imp_left fun h => h.mono (by omega) (by simp [names])
  unfold code
  rw [if_pos hempty]
  refine .newLabel_bind hlabel (guarded_bind hR he h₁ hroom₁ fun ec c₁ hec hc₁ => ?_)
  exact .emit ⟨_, .ifThen hempty hec hc₁, by simp [Nat.add_assoc]⟩

theorem ifElse (hR : Ready t a) (hempty : s₂.isEmpty = false)
    (he : e.HasType (t.typeEnv a.scope) .bool) (h₁ : CodeEnds t a A s₁) (h₂ : CodeEnds t a A s₂) :
    CodeEnds t a A (.ifElse p e s₁ s₂) := by
  intro g hroom
  have hcount : (Stmt.ifElse p e s₁ s₂).labels =
      2 + e.branchLabels + s₁.labels + s₂.labels := by
    rw [labels, hempty]
    rfl
  rw [hcount] at hroom ⊢
  have hlabel : g.nextLabel + 1 + (e.branchLabels + s₁.labels) + 1 < UInt32.size ∨ A :=
    hroom.imp_left fun h => by
      have hlt := h.labels
      omega
  have hroom₁ : CodeRoom t a (g.nextLabel + 1) (e.branchLabels + s₁.labels)
      (e.names ++ s₁.names) ∨ A :=
    hroom.imp_left fun h => h.mono (by omega) (by simp [names])
  have hroom₂ : CodeRoom t a (g.nextLabel + 1 + e.branchLabels + s₁.labels + 1) s₂.labels
      s₂.names ∨ A :=
    hroom.imp_left fun h => h.mono (by omega) (by simp [names])
  unfold code
  rw [hempty, if_neg Bool.false_ne_true]
  refine .newLabel_bind (hlabel.imp_left fun h => by omega) ?_
  refine guarded_bind hR he h₁ hroom₁ fun ec c₁ hec hc₁ => ?_
  refine .newLabel_bind hlabel (.emit_bind (.emit_bind ?_))
  simp only [Generator.add_add]
  refine (h₂ _ ?_).bind ?_
  · simpa [Nat.add_assoc] using hroom₂
  intro _ _ hrun
  obtain ⟨c₂, hc₂, rfl⟩ := hrun
  refine .emit ⟨_, .ifElse hempty hec hc₁ (by simpa [Nat.add_assoc] using hc₂) rfl, ?_⟩
  simp only [Generator.add_add, Generator.add_nextLabel]
  congr 1
  · omega
  · simp [Nat.add_assoc]

theorem whileDo (hR : Ready t a) (he : e.HasType (t.typeEnv a.scope) .bool)
    (hs : CodeEnds t a A s) : CodeEnds t a A (.whileDo p e s) := by
  intro g hroom
  have hlabel : g.nextLabel + 1 + 1 < UInt32.size ∨ A := hroom.imp_left fun h => by
    have hlt := h.labels
    rw [labels] at hlt
    omega
  have hroom₁ : CodeRoom t a (g.nextLabel + 2) (e.branchLabels + s.labels)
      (e.names ++ s.names) ∨ A :=
    hroom.imp_left fun h => h.mono (by rw [labels]; omega) (by simp [names])
  unfold code
  refine .newLabel_bind (hlabel.imp_left fun h => by omega) (.newLabel_bind hlabel ?_)
  refine .emit_bind (guarded_bind hR he hs hroom₁ fun ec c₁ hec hc₁ => ?_)
  exact .emit_bind (.emit ⟨_, .whileDo hec hc₁, by simp [labels, Nat.add_assoc]⟩)

theorem call (hR : Ready t a) {c : Call} (hc : c.WellTyped (t.typeEnv a.scope)) :
    CodeEnds t a A (.call c) := by
  intro g hroom
  obtain ⟨views, hviews, hargs⟩ := hc
  obtain ⟨callee, hcallee, rfl, hoffsets⟩ := hR.procedures c.procedure views hviews
  unfold code Call.code
  rw [hcallee]
  refine (Call.storeArguments_ends hR hargs hoffsets hroom).bind ?_
  intro _ _ hrun
  obtain ⟨code, hcode, rfl⟩ := hrun
  exact .emit ⟨_, .call hcallee hcode, by simp [labels, Call.labels]⟩

end Stmt.CodeEnds

mutual

/-- The code of a statement. -/
theorem Stmt.code_ends (hR : Ready t a) : ∀ {s : Stmt} {g : Generator},
    s.WellTyped (t.typeEnv a.scope) → CodeRoom t a g.nextLabel s.labels s.names ∨ A →
    Ends (CodeFailure A) (fun _ g' => ∃ code, s.Code t a g.registers g.nextLabel code ∧
      g' = g.add s.labels code) (s.code t a) g
  | .assign _ _ _, g, h, hroom => by
    cases h with
    | assign hd he _ => exact CodeEnds.assign hR hd he g hroom
  | .ifElse _ e s₁ s₂, g, h, hroom => by
    obtain ⟨he, h₁, h₂⟩ : e.HasType (t.typeEnv a.scope) .bool ∧
        s₁.WellTyped (t.typeEnv a.scope) ∧ s₂.WellTyped (t.typeEnv a.scope) := by
      cases h with
      | ifElse he h₁ h₂ => exact ⟨he, h₁, h₂⟩
    have hends₁ : s₁.CodeEnds t a A := fun _ => Stmt.code_ends hR h₁
    cases hempty : s₂.isEmpty with
    | true => exact CodeEnds.ifThen hR hempty he hends₁ g hroom
    | false =>
      have hends₂ : s₂.CodeEnds t a A := fun _ => Stmt.code_ends hR h₂
      exact CodeEnds.ifElse hR hempty he hends₁ hends₂ g hroom
  | .whileDo _ e s, g, h, hroom => by
    obtain ⟨he, hs⟩ : e.HasType (t.typeEnv a.scope) .bool ∧ s.WellTyped (t.typeEnv a.scope) := by
      cases h with
      | whileDo he hs => exact ⟨he, hs⟩
    have hends : s.CodeEnds t a A := fun _ => Stmt.code_ends hR hs
    exact CodeEnds.whileDo hR he hends g hroom
  | .call _, g, h, hroom => by
    cases h with
    | call h => exact CodeEnds.call hR h g hroom
  | .compound _ ss, g, h, hroom => by
    have hss : ∀ s ∈ ss, s.WellTyped (t.typeEnv a.scope) := by
      cases h with
      | compound h => exact h
    unfold Stmt.code
    refine (Stmt.codeOf_ends hR hss hroom).mono ?_
    intro _ _ hrun
    obtain ⟨code, hcode, rfl⟩ := hrun
    exact ⟨code, .compound hcode, by rw [Stmt.labels]⟩
  | .empty _, _, _, _ => by
    unfold Stmt.code
    exact .pure ⟨[], .empty, Generator.add_zero_nil.symm⟩

/-- The code of a list of statements. -/
theorem Stmt.codeOf_ends (hR : Ready t a) : ∀ {ss : List Stmt} {g : Generator},
    (∀ s ∈ ss, s.WellTyped (t.typeEnv a.scope)) →
    CodeRoom t a g.nextLabel (Stmt.labelsOf ss) (Stmt.namesOf ss) ∨ A →
    Ends (CodeFailure A) (fun _ g' => ∃ code, Stmt.CodeOf t a g.registers g.nextLabel ss code ∧
      g' = g.add (Stmt.labelsOf ss) code) (Stmt.codeOf t a ss) g
  | [], g, _, _ => by
    unfold Stmt.codeOf
    exact .pure ⟨[], .nil, Generator.add_zero_nil.symm⟩
  | s :: ss, g, h, hroom => by
    have hroom₁ : CodeRoom t a g.nextLabel s.labels s.names ∨ A :=
      hroom.imp_left fun h => h.mono (by rw [Stmt.labelsOf]; omega) (by simp [Stmt.namesOf])
    have hroom₂ : CodeRoom t a (g.nextLabel + s.labels) (Stmt.labelsOf ss) (Stmt.namesOf ss) ∨ A :=
      hroom.imp_left fun h => h.mono (by rw [Stmt.labelsOf]; omega) (by simp [Stmt.namesOf])
    unfold Stmt.codeOf
    refine (Stmt.code_ends hR (h s (.head _)) hroom₁).bind ?_
    intro _ _ hrun
    obtain ⟨c₁, hc₁, rfl⟩ := hrun
    refine (Stmt.codeOf_ends hR (fun s' hs' => h s' (.tail _ hs')) hroom₂).mono ?_
    intro _ _ hrun
    obtain ⟨cs, hcs, rfl⟩ := hrun
    exact ⟨_, .cons hc₁ hcs, by simp [Stmt.labelsOf]⟩

end

end Spl
