import Spl.Proofs.Code.Labels

/-!
# The instructions of bodies

The code of a body writes registers of the bank only. Its branches and jumps stay inside, those to
the error routine apart, and it calls nothing but what its statements call. Its comments stand at
the arguments of calls.

* `Inst.OfBody`, `BodyLines`: the instructions that the code of a body consists of.
* `Line.InBody`: its lines.
* `Stmt.CodeOf.inBody`, `Stmt.CodeOf.bodyLines`: the code of statements consists of these.
-/

namespace Spl

/-- The instructions of bodies: they write registers of the bank only, branch to the error routine
or to `T`, jump to `T` and call `C`. -/
def Inst.OfBody (T C : String → Prop) : Inst → Prop
  | .alu _ target _ _ | .load target _ _ => target.isFree = true
  | .store .. | .label _ => True
  | .branch _ _ _ target => target = indexErrorRoutine ∨ T target
  | .jump target => T target
  | .call procedure => C procedure
  | .importName _ | .exportName _ | .code | .align _ | .blank | .jumpRegister _ => False

/-- Lines that consist of instructions of bodies. -/
def BodyLines (T C : String → Prop) (code : List Line) : Prop :=
  ∀ line ∈ code, line.inst.OfBody T C

/-- The lines of bodies: instructions of bodies without a comment, and stores of arguments. -/
inductive Line.InBody (T C : String → Prop) : Line → Prop
  | plain {inst : Inst} : inst.OfBody T C → InBody T C (plain inst)
  | argument {r base : Reg} {offset : Word} {index : Nat} :
      InBody T C (noted (.store r base offset) ("store argument #" ++ toString index))

/-- Lines of a body. -/
def BodyCode (T C : String → Prop) (code : List Line) : Prop := ∀ line ∈ code, line.InBody T C

/-- The labels that are drawn when `k` of them are taken from the number `n` on are in `T`. -/
def Draws (T : String → Prop) (n k : Nat) : Prop := ∀ i, n ≤ i → i < n + k → T (labelName i)

section

variable {T C : String → Prop} {n n' k k' : Nat} {c c' : List Line}

theorem Draws.mono (h : Draws T n k) (hn : n ≤ n') (hk : n' + k' ≤ n + k) : Draws T n' k' :=
  fun i hi hi' => h i (by omega) (by omega)

namespace BodyCode

theorem nil : BodyCode T C [] := fun _ hl => nomatch hl

theorem cons {inst : Inst} (hi : inst.OfBody T C) (h : BodyCode T C c) :
    BodyCode T C (plain inst :: c) :=
  List.forall_mem_cons.2 ⟨.plain hi, h⟩

theorem argument {r base : Reg} {offset : Word} {index : Nat} (h : BodyCode T C c) :
    BodyCode T C (noted (.store r base offset) ("store argument #" ++ toString index) :: c) :=
  List.forall_mem_cons.2 ⟨.argument, h⟩

theorem append (h : BodyCode T C c) (h' : BodyCode T C c') : BodyCode T C (c ++ c') :=
  List.forall_mem_append.2 ⟨h, h'⟩

end BodyCode

end

section

variable {t : SymbolTable} {a : Addressing} {T C : String → Prop}

mutual

theorem Designator.AddressCode.inBody : ∀ {s : RegisterStack} {n : Nat} {d : Designator}
    {code : List Line}, d.AddressCode t a s n code → Draws T n d.labels → BodyCode T C code
  | s, _, _, _, .named _ _ _, _ => by
    refine .cons s.current_isFree ?_
    split
    · exact .cons s.current_isFree .nil
    · exact .nil
  | s, n, _, _, @Designator.AddressCode.element _ _ _ s' s'' _ _ _ _ _ _ _ _ _ _ _ _ _ _ ha hi,
      hT => by
    rw [Designator.labels] at hT
    have h₁ := ha.inBody (hT.mono (Nat.le_refl n) (by omega))
    have h₂ := hi.inBody (hT.mono (Nat.le_add_right n _) (by omega))
    exact (h₁.append h₂).append (.cons s''.current_isFree (.cons (.inl rfl)
      (.cons s'.current_isFree (.cons s.current_isFree .nil))))
  | s, _, _, _, .field _ _ hr, hT => by
    rw [Designator.labels] at hT
    refine (hr.inBody hT).append ?_
    split
    · exact .cons s.current_isFree .nil
    · exact .nil

theorem Expr.ValueCode.inBody : ∀ {s : RegisterStack} {n : Nat} {e : Expr}
    {code : List Line}, e.ValueCode t a s n code → Draws T n e.labels → BodyCode T C code
  | s, _, _, _, .literal, _ => .cons s.current_isFree .nil
  | s, _, _, _, .unary he, hT => by
    rw [Expr.labels] at hT
    exact (he.inBody hT).append (.cons s.current_isFree .nil)
  | s, n, _, _, .compare _ hl hr, hT => by
    rw [Expr.labels] at hT
    have h₁ := hl.inBody (hT.mono (by omega) (by omega))
    have h₂ := hr.inBody (hT.mono (by omega) (by omega))
    have hfalse : T (labelName n) := hT n (by omega) (by omega)
    have hdone : T (labelName (n + 1)) := hT (n + 1) (by omega) (by omega)
    exact (h₁.append h₂).append (.cons (.inr hfalse) (.cons s.current_isFree (.cons hdone
      (.cons trivial (.cons s.current_isFree (.cons trivial .nil))))))
  | s, n, _, _, .arith _ hl hr, hT => by
    rw [Expr.labels] at hT
    exact ((hl.inBody (hT.mono (Nat.le_refl n) (by omega))).append
      (hr.inBody (hT.mono (Nat.le_add_right n _) (by omega)))).append
      (.cons s.current_isFree .nil)
  | s, _, _, _, .designator hd, hT => by
    rw [Expr.labels] at hT
    exact (hd.inBody hT).append (.cons s.current_isFree .nil)

end

theorem Expr.BranchCode.inBody {label : String} {s : RegisterStack} {n : Nat} {e : Expr}
    {code : List Line} (h : e.BranchCode t a label s n code) (hT : Draws T n e.branchLabels)
    (hlabel : T label) : BodyCode T C code := by
  cases h with
  | compare _ hl hr =>
    rw [Expr.branchLabels] at hT
    exact ((hl.inBody (hT.mono (Nat.le_refl n) (by omega))).append
      (hr.inBody (hT.mono (Nat.le_add_right n _) (by omega)))).append (.cons (.inr hlabel) .nil)
  | value hc he =>
    rw [Expr.branchLabels_of_not_isCompare hc] at hT
    exact (he.inBody hT).append (.cons (.inr hlabel) .nil)

theorem Call.ArgumentsCode.inBody {s : RegisterStack} {n index : Nat} {es : List Expr}
    {vs : List Variable} {code : List Line} (h : Call.ArgumentsCode t a s n index es vs code) :
    Draws T n (Expr.labelsOf es) → BodyCode T C code := by
  induction h with
  | nil => exact fun _ => .nil
  | value _ _ he _ ih =>
    rw [Expr.labelsOf]
    intro hT
    exact (he.inBody (hT.mono (Nat.le_refl _) (by omega))).append
      (.argument (ih (hT.mono (Nat.le_add_right _ _) (by omega))))
  | reference _ _ hd _ ih =>
    rw [Expr.labelsOf, Expr.labels]
    intro hT
    exact (hd.inBody (hT.mono (Nat.le_refl _) (by omega))).append
      (.argument (ih (hT.mono (Nat.le_add_right _ _) (by omega))))

mutual

theorem Stmt.Code.inBody : ∀ {s : RegisterStack} {n : Nat} {st : Stmt} {code : List Line},
    st.Code t a s n code → Draws T n st.labels → (∀ c ∈ st.calls, C c.procedure) →
    BodyCode T C code
  | _, n, _, _, .assign _ hd he, hT, _ => by
    rw [Stmt.labels] at hT
    exact ((hd.inBody (hT.mono (Nat.le_refl n) (by omega))).append
      (he.inBody (hT.mono (Nat.le_add_right n _) (by omega)))).append (.cons trivial .nil)
  | _, n, _, _, .ifThen hempty he h₁, hT, hcalls => by
    rw [Stmt.labels, if_pos hempty] at hT
    rw [Stmt.calls, List.forall_mem_append] at hcalls
    have hdone : T (labelName n) := hT n (by omega) (by omega)
    exact ((he.inBody (hT.mono (by omega) (by omega)) hdone).append
      (h₁.inBody (hT.mono (by omega) (by omega)) hcalls.1)).append (.cons trivial .nil)
  | _, n, _, _, @Stmt.Code.ifElse _ _ _ _ _ e s₁ _ _ _ _ _ hempty he h₁ h₂ rfl, hT, hcalls => by
    rw [Stmt.labels, hempty, if_neg Bool.false_ne_true] at hT
    rw [Stmt.calls, List.forall_mem_append] at hcalls
    have hfalse : T (labelName n) := hT n (by omega) (by omega)
    have hdone : T (labelName (n + 1 + e.branchLabels + s₁.labels)) := hT _ (by omega) (by omega)
    have hc := he.inBody (C := C) (hT.mono (by omega) (by omega)) hfalse
    have h₁' := h₁.inBody (hT.mono (by omega) (by omega)) hcalls.1
    have h₂' := h₂.inBody (hT.mono (by omega) (by omega)) hcalls.2
    have h₃ : BodyCode T C [plain (.jump (labelName (n + 1 + e.branchLabels + s₁.labels))),
        plain (.label (labelName n))] := .cons hdone (.cons trivial .nil)
    exact (((hc.append h₁').append h₃).append h₂').append (.cons trivial .nil)
  | _, n, _, _, .whileDo he h₁, hT, hcalls => by
    rw [Stmt.labels] at hT
    rw [Stmt.calls] at hcalls
    have hstart : T (labelName n) := hT n (by omega) (by omega)
    have hdone : T (labelName (n + 1)) := hT (n + 1) (by omega) (by omega)
    have hc := he.inBody (C := C) (hT.mono (by omega) (by omega)) hdone
    have h₁' := h₁.inBody (hT.mono (by omega) (by omega)) hcalls
    have htest : BodyCode T C (plain (.label (labelName n)) :: _) := hc.cons trivial
    exact (htest.append h₁').append (.cons hstart (.cons trivial .nil))
  | _, _, _, _, .call _ hargs, hT, hcalls => by
    rw [Stmt.labels, Call.labels] at hT
    rw [Stmt.calls] at hcalls
    exact (hargs.inBody hT).append (.cons (hcalls _ (.head _)) .nil)
  | _, _, _, _, .compound hss, hT, hcalls => by
    rw [Stmt.labels] at hT
    rw [Stmt.calls] at hcalls
    exact hss.inBody hT hcalls
  | _, _, _, _, .empty, _, _ => .nil

/-- The code of statements consists of lines of bodies. -/
theorem Stmt.CodeOf.inBody : ∀ {s : RegisterStack} {n : Nat} {ss : List Stmt}
    {code : List Line}, Stmt.CodeOf t a s n ss code → Draws T n (Stmt.labelsOf ss) →
    (∀ c ∈ Stmt.callsOf ss, C c.procedure) → BodyCode T C code
  | _, _, _, _, .nil, _, _ => .nil
  | _, n, _, _, .cons h hs, hT, hcalls => by
    rw [Stmt.labelsOf] at hT
    rw [Stmt.callsOf, List.forall_mem_append] at hcalls
    exact (h.inBody (hT.mono (Nat.le_refl n) (by omega)) hcalls.1).append
      (hs.inBody (hT.mono (Nat.le_add_right n _) (by omega)) hcalls.2)

end

/-- The code of statements consists of instructions of bodies. -/
theorem Stmt.CodeOf.bodyLines {s : RegisterStack} {n : Nat} {ss : List Stmt} {code : List Line}
    (h : Stmt.CodeOf t a s n ss code) (hT : Draws T n (Stmt.labelsOf ss))
    (hcalls : ∀ c ∈ Stmt.callsOf ss, C c.procedure) : BodyLines T C code := fun line hl => by
  cases h.inBody hT hcalls line hl with
  | plain hi => exact hi
  | argument => exact trivial

end

end Spl
