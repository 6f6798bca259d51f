import Mathlib.Data.List.Nodup
import Spl.Proofs.Code.Shape

/-!
# Labels

Which labels a piece of code defines and to which ones it goes. The code of a form defines the
local labels that it takes from the counter, each of them once, and goes to no other local label.

* `labelsIn`, `importsIn`, `targetsIn`: the symbols of a list of lines.
* `drawn`: the local labels of a range of numbers; `nodup_drawn`: they are different.
* `Fragment`: code with given labels whose targets are allowed.
* `Stmt.Code.fragment`: the symbols of statements.
* `ProcDecl.CodeOf.fragment`: the symbols of procedures.
-/

namespace Spl

/-! ## Symbols of lines -/

namespace Inst

/-- The name that an instruction defines. -/
def label? : Inst → Option String
  | .label name => some name
  | .importName _ | .exportName _ | .code | .align _ | .blank | .alu .. | .load .. | .store ..
  | .branch .. | .jump _ | .jumpRegister _ | .call _ => none

/-- The name that an instruction imports. -/
def import? : Inst → Option String
  | .importName name => some name
  | .exportName _ | .code | .align _ | .label _ | .blank | .alu .. | .load .. | .store ..
  | .branch .. | .jump _ | .jumpRegister _ | .call _ => none

/-- The name to which an instruction may go. -/
def target? : Inst → Option String
  | .branch _ _ _ target | .jump target | .call target => some target
  | .importName _ | .exportName _ | .code | .align _ | .label _ | .blank | .alu .. | .load ..
  | .store .. | .jumpRegister _ => none

end Inst

/-- The names that lines define. -/
def labelsIn (lines : List Line) : List String := lines.filterMap (·.inst.label?)

/-- The names that lines import. -/
def importsIn (lines : List Line) : List String := lines.filterMap (·.inst.import?)

/-- The names to which lines may go. -/
def targetsIn (lines : List Line) : List String := lines.filterMap (·.inst.target?)

section
variable {c d : List Line}

@[simp]
theorem labelsIn_append : labelsIn (c ++ d) = labelsIn c ++ labelsIn d := List.filterMap_append

@[simp]
theorem importsIn_append : importsIn (c ++ d) = importsIn c ++ importsIn d := List.filterMap_append

@[simp]
theorem targetsIn_append : targetsIn (c ++ d) = targetsIn c ++ targetsIn d := List.filterMap_append

end

/-! ## Local labels -/

theorem labelName_injective : Function.Injective labelName := by
  intro m n h
  have hr : m.repr = n.repr := (String.append_right_inj "L").1 h
  rw [← Nat.ofDigitChars_ten_toDigits (n := m), ← Nat.toList_repr, hr, Nat.toList_repr,
    Nat.ofDigitChars_ten_toDigits]

/-- A name with another first letter is no local label. -/
theorem labelName_ne {s : String} (h : s.toList.head? ≠ some 'L') (n : Nat) : labelName n ≠ s := by
  intro h
  subst h
  simp [labelName] at h

/-- The local labels that are drawn when `k` of them are taken from the number `n` on. -/
def drawn (n k : Nat) : List String := (List.range' n k).map labelName

theorem mem_drawn {n k : Nat} {l : String} :
    l ∈ drawn n k ↔ ∃ i, n ≤ i ∧ i < n + k ∧ labelName i = l := by
  simp [drawn, List.mem_range'_1, and_assoc]

theorem drawn_zero (n : Nat) : drawn n 0 = [] := rfl

theorem drawn_succ (n k : Nat) : drawn n (k + 1) = labelName n :: drawn (n + 1) k := by
  rw [drawn, List.range'_succ, List.map_cons, drawn]

theorem drawn_add (n j k : Nat) : drawn n (j + k) = drawn n j ++ drawn (n + j) k := by
  rw [drawn, drawn, drawn, ← List.map_append, List.range'_append_1]

theorem nodup_drawn (n k : Nat) : (drawn n k).Nodup :=
  List.Nodup.map labelName_injective (List.nodup_range' ..)

/-! ## Fragments -/

/-- Code that defines the given labels, imports nothing, and goes only to targets that are
allowed. -/
structure Fragment (allowed : String → Prop) (names : List String) (code : List Line) : Prop where
  labels : (labelsIn code).Perm names
  imports : importsIn code = []
  targets : ∀ l ∈ targetsIn code, allowed l

namespace Fragment

variable {T : String → Prop} {ls ls' : List String} {c d : List Line}

theorem nil : Fragment T [] [] := ⟨.refl _, rfl, nofun⟩

theorem append (h : Fragment T ls c) (h' : Fragment T ls' d) : Fragment T (ls ++ ls') (c ++ d) where
  labels := by
    rw [labelsIn_append]
    exact h.labels.append h'.labels
  imports := by rw [importsIn_append, h.imports, h'.imports, List.append_nil]
  targets l hl := by
    rw [targetsIn_append, List.mem_append] at hl
    exact hl.elim (h.targets l) (h'.targets l)

theorem perm (h : Fragment T ls c) (hp : ls.Perm ls') : Fragment T ls' c :=
  ⟨h.labels.trans hp, h.imports, h.targets⟩

/-- A line that is neither a label nor an import, and goes to nothing that is not allowed. -/
theorem cons {l : Line} (h : Fragment T ls c) (hlabel : l.inst.label? = none)
    (himport : l.inst.import? = none) (htarget : ∀ x, l.inst.target? = some x → T x) :
    Fragment T ls (l :: c) where
  labels := by
    simp only [labelsIn, List.filterMap_cons, hlabel]
    exact h.labels
  imports := by
    simp only [importsIn, List.filterMap_cons, himport]
    exact h.imports
  targets x hx := by
    rw [targetsIn, List.mem_filterMap] at hx
    obtain ⟨l', hl', hx⟩ := hx
    rcases List.mem_cons.1 hl' with rfl | hl'
    · exact htarget x hx
    · exact h.targets x (List.mem_filterMap.2 ⟨l', hl', hx⟩)

theorem cons_label {name : String} (h : Fragment T ls c) :
    Fragment T (name :: ls) (plain (.label name) :: c) where
  labels := h.labels.cons name
  imports := h.imports
  targets := h.targets

/-- A line that changes registers or memory only. -/
theorem cons_step {l : Line} (h : Fragment T ls c) (hlabel : l.inst.label? = none := by rfl)
    (himport : l.inst.import? = none := by rfl) (htarget : l.inst.target? = none := by rfl) :
    Fragment T ls (l :: c) :=
  h.cons hlabel himport fun x hx => by
    rw [htarget] at hx
    cases hx

theorem cons_branch {cond : Cond} {r r' : Reg} {x : String} (hx : T x) (h : Fragment T ls c) :
    Fragment T ls (plain (.branch cond r r' x) :: c) :=
  h.cons rfl rfl fun _ hy => Option.some.inj hy ▸ hx

theorem cons_jump {x : String} (hx : T x) (h : Fragment T ls c) :
    Fragment T ls (plain (.jump x) :: c) :=
  h.cons rfl rfl fun _ hy => Option.some.inj hy ▸ hx

theorem cons_call {x : String} (hx : T x) (h : Fragment T ls c) :
    Fragment T ls (plain (.call x) :: c) :=
  h.cons rfl rfl fun _ hy => Option.some.inj hy ▸ hx

end Fragment

/-! ## Bodies -/

section

variable {t : SymbolTable} {a : Addressing} {T : String → Prop}

/-- The error routine and the local labels of a range are allowed. -/
structure Allows (T : String → Prop) (n k : Nat) : Prop where
  indexError : T indexErrorRoutine
  drawn : ∀ l ∈ drawn n k, T l

theorem Allows.mono {n k n' k' : Nat} (h : Allows T n k) (hn : n ≤ n') (hk : n' + k' ≤ n + k) :
    Allows T n' k' where
  indexError := h.indexError
  drawn l hl := by
    obtain ⟨i, hi, hi', rfl⟩ := mem_drawn.1 hl
    exact h.drawn _ (mem_drawn.2 ⟨i, by omega, by omega, rfl⟩)

theorem Allows.label {n k : Nat} (h : Allows T n k) {i : Nat} (hn : n ≤ i) (hk : i < n + k) :
    T (labelName i) :=
  h.drawn _ (mem_drawn.2 ⟨i, hn, hk, rfl⟩)

mutual

theorem Designator.AddressCode.fragment : ∀ {s : RegisterStack} {n : Nat} {d : Designator}
    {code : List Line}, d.AddressCode t a s n code → Allows T n d.labels →
    Fragment T (drawn n d.labels) code
  | _, _, _, _, .named _ _ _, _ => by
    rw [Designator.labels, drawn_zero]
    split
    · exact .cons_step (.cons_step .nil)
    · exact .cons_step .nil
  | _, n, _, _, @Designator.AddressCode.element _ _ s s' s'' _ _ array index _ length _ size _ _
      _ _ _ _ ha hi, hT => by
    rw [Designator.labels] at hT ⊢
    have h₁ := ha.fragment (hT.mono (Nat.le_refl n) (by omega))
    have h₂ := hi.fragment (hT.mono (Nat.le_add_right n _) (by omega))
    have h₃ : Fragment T [] [plain (.alu .add s''.current .zero (.immediate length.toInt32)),
        plain (.branch .geu s'.current s''.current indexErrorRoutine),
        plain (.alu .mul s'.current s'.current (.immediate size)),
        plain (.alu .add s.current s.current (.register s'.current))] :=
      .cons_step (.cons_branch hT.indexError (.cons_step (.cons_step .nil)))
    have h := (h₁.append h₂).append h₃
    rwa [List.append_nil, ← drawn_add] at h
  | _, n, _, _, .field _ _ hr, hT => by
    rw [Designator.labels] at hT ⊢
    rw [← List.append_nil (drawn n _)]
    refine (hr.fragment hT).append ?_
    split
    · exact .cons_step .nil
    · exact .nil

theorem Expr.ValueCode.fragment : ∀ {s : RegisterStack} {n : Nat} {e : Expr}
    {code : List Line}, e.ValueCode t a s n code → Allows T n e.labels →
    Fragment T (drawn n e.labels) code
  | _, _, _, _, .literal, _ => by
    rw [Expr.labels, drawn_zero]
    exact .cons_step .nil
  | _, n, _, _, .unary he, hT => by
    rw [Expr.labels] at hT ⊢
    rw [← List.append_nil (drawn n _)]
    exact (he.fragment hT).append (.cons_step .nil)
  | _, n, _, _, @Expr.ValueCode.compare _ _ s s' _ _ op l r _ _ _ _ hl hr, hT => by
    rw [Expr.labels] at hT ⊢
    have h₁ := hl.fragment (hT.mono (by omega) (by omega))
    have h₂ := hr.fragment (hT.mono (by omega) (by omega))
    have h₃ : Fragment T (drawn n 2)
        [plain (.branch op.negate.cond s.current s'.current (labelName n)),
         plain (.alu .add s.current .zero (.immediate 1)),
         plain (.jump (labelName (n + 1))),
         plain (.label (labelName n)),
         plain (.alu .add s.current .zero (.immediate 0)),
         plain (.label (labelName (n + 1)))] :=
      .cons_branch (hT.label (by omega) (by omega)) (.cons_step
        (.cons_jump (hT.label (by omega) (by omega)) (.cons_label
          (.cons_step (.cons_label .nil)))))
    have h := (h₁.append h₂).append h₃
    rw [← drawn_add] at h
    rw [Nat.add_assoc, drawn_add]
    exact h.perm List.perm_append_comm
  | _, n, _, _, .arith _ hl hr, hT => by
    rw [Expr.labels] at hT ⊢
    rw [drawn_add, ← List.append_nil (drawn n _ ++ _)]
    exact ((hl.fragment (hT.mono (Nat.le_refl n) (by omega))).append
      (hr.fragment (hT.mono (Nat.le_add_right n _) (by omega)))).append (.cons_step .nil)
  | _, n, _, _, .designator hd, hT => by
    rw [Expr.labels] at hT ⊢
    rw [← List.append_nil (drawn n _)]
    exact (hd.fragment hT).append (.cons_step .nil)

end

theorem Expr.BranchCode.fragment {label : String} {s : RegisterStack} {n : Nat} {e : Expr}
    {code : List Line} (h : e.BranchCode t a label s n code) (hT : Allows T n e.branchLabels)
    (hlabel : T label) : Fragment T (drawn n e.branchLabels) code := by
  rw [← List.append_nil (drawn n _)]
  cases h with
  | compare _ hl hr =>
    rw [Expr.branchLabels] at hT ⊢
    rw [drawn_add]
    exact ((hl.fragment (hT.mono (Nat.le_refl n) (by omega))).append
      (hr.fragment (hT.mono (Nat.le_add_right n _) (by omega)))).append (.cons_branch hlabel .nil)
  | value hc he =>
    rw [Expr.branchLabels_of_not_isCompare hc] at hT ⊢
    exact (he.fragment hT).append (.cons_branch hlabel .nil)

theorem Call.ArgumentsCode.fragment {s : RegisterStack} {n index : Nat} {es : List Expr}
    {vs : List Variable} {code : List Line} (h : Call.ArgumentsCode t a s n index es vs code) :
    Allows T n (Expr.labelsOf es) → Fragment T (drawn n (Expr.labelsOf es)) code := by
  induction h with
  | nil => exact fun _ => .nil
  | value _ _ he _ ih =>
    rw [Expr.labelsOf, drawn_add]
    intro hT
    exact (he.fragment (hT.mono (Nat.le_refl _) (by omega))).append
      (.cons_step (ih (hT.mono (Nat.le_add_right _ _) (by omega))))
  | reference _ _ hd _ ih =>
    rw [Expr.labelsOf, Expr.labels, drawn_add]
    intro hT
    exact (hd.fragment (hT.mono (Nat.le_refl _) (by omega))).append
      (.cons_step (ih (hT.mono (Nat.le_add_right _ _) (by omega))))

mutual

/-- The code of a statement defines the local labels that it takes. -/
theorem Stmt.Code.fragment : ∀ {s : RegisterStack} {n : Nat} {st : Stmt} {code : List Line},
    st.Code t a s n code → Allows T n st.labels → (∀ c ∈ st.calls, T c.procedure) →
    Fragment T (drawn n st.labels) code
  | _, n, _, _, .assign _ hd he, hT, _ => by
    rw [Stmt.labels] at hT ⊢
    rw [drawn_add, ← List.append_nil (drawn n _ ++ _)]
    exact ((hd.fragment (hT.mono (Nat.le_refl n) (by omega))).append
      (he.fragment (hT.mono (Nat.le_add_right n _) (by omega)))).append (.cons_step .nil)
  | _, n, _, _, @Stmt.Code.ifThen _ _ _ _ _ _ _ s₂ _ _ hempty he h₁, hT, hcalls => by
    have h₂ : s₂.calls = [] := by cases s₂ <;> first | rfl | cases hempty
    rw [Stmt.labels, if_pos hempty, Stmt.labels_of_isEmpty hempty, Nat.add_zero] at hT ⊢
    rw [Stmt.calls, h₂, List.append_nil] at hcalls
    have hc := he.fragment (hT.mono (by omega) (by omega)) (hT.label (Nat.le_refl n) (by omega))
    have h₁' := h₁.fragment (hT.mono (by omega) (by omega)) hcalls
    have h₃ : Fragment T (drawn n 1) [plain (.label (labelName n))] := .cons_label .nil
    have h := (hc.append h₁').append h₃
    rw [← drawn_add] at h
    rw [Nat.add_assoc, drawn_add]
    exact h.perm List.perm_append_comm
  | _, n, _, _, @Stmt.Code.ifElse _ _ _ _ _ e s₁ s₂ _ _ _ _ hempty he h₁ h₂ rfl, hT, hcalls => by
    rw [Stmt.labels, hempty, if_neg Bool.false_ne_true] at hT ⊢
    rw [Stmt.calls] at hcalls
    have hc := he.fragment (hT.mono (by omega) (by omega)) (hT.label (Nat.le_refl n) (by omega))
    have h₁' := h₁.fragment (hT.mono (by omega) (by omega))
      fun c hc => hcalls c (List.mem_append_left _ hc)
    have h₂' := h₂.fragment (hT.mono (by omega) (by omega))
      fun c hc => hcalls c (List.mem_append_right _ hc)
    have h₃ : Fragment T (drawn n 1)
        [plain (.jump (labelName (n + 1 + e.branchLabels + s₁.labels))),
         plain (.label (labelName n))] :=
      .cons_jump (hT.label (by omega) (by omega)) (.cons_label .nil)
    have h₄ : Fragment T (drawn (n + 1 + e.branchLabels + s₁.labels) 1)
        [plain (.label (labelName (n + 1 + e.branchLabels + s₁.labels)))] := .cons_label .nil
    have h := (((hc.append h₁').append h₃).append h₂').append h₄
    refine h.perm (List.perm_iff_count.2 fun l => ?_)
    have hl : 2 + e.branchLabels + s₁.labels + s₂.labels =
      1 + (e.branchLabels + (s₁.labels + (1 + s₂.labels))) := by omega
    rw [hl]
    simp only [drawn_add, List.count_append, Nat.add_assoc]
    omega
  | _, n, _, _, .whileDo he h₁, hT, hcalls => by
    rw [Stmt.labels] at hT ⊢
    rw [Stmt.calls] at hcalls
    have hc := he.fragment (hT.mono (by omega) (by omega)) (hT.label (by omega) (by omega))
    have h₁' := h₁.fragment (hT.mono (by omega) (by omega)) hcalls
    have h₃ : Fragment T (drawn (n + 1) 1)
        [plain (.jump (labelName n)), plain (.label (labelName (n + 1)))] :=
      .cons_jump (hT.label (by omega) (by omega)) (.cons_label .nil)
    have h : Fragment T (labelName n :: _) _ := .cons_label ((hc.append h₁').append h₃)
    rw [← drawn_add] at h
    rw [Nat.add_assoc 2, drawn_add n 2, drawn_succ n 1]
    exact h.perm (List.perm_append_comm.cons _)
  | _, _, _, _, .call _ hargs, hT, hcalls => by
    rw [Stmt.labels, Call.labels] at hT ⊢
    rw [Stmt.calls] at hcalls
    rw [← List.append_nil (drawn _ _)]
    exact (hargs.fragment hT).append (.cons_call (hcalls _ (.head _)) .nil)
  | _, _, _, _, .compound hss, hT, hcalls => by
    rw [Stmt.labels] at hT ⊢
    rw [Stmt.calls] at hcalls
    exact hss.fragment hT hcalls
  | _, _, _, _, .empty, _, _ => by
    rw [Stmt.labels, drawn_zero]
    exact .nil

theorem Stmt.CodeOf.fragment : ∀ {s : RegisterStack} {n : Nat} {ss : List Stmt}
    {code : List Line}, Stmt.CodeOf t a s n ss code → Allows T n (Stmt.labelsOf ss) →
    (∀ c ∈ Stmt.callsOf ss, T c.procedure) → Fragment T (drawn n (Stmt.labelsOf ss)) code
  | _, n, _, _, .nil, _, _ => by
    rw [Stmt.labelsOf, drawn_zero]
    exact .nil
  | _, n, _, _, .cons h hs, hT, hcalls => by
    rw [Stmt.labelsOf] at hT ⊢
    rw [Stmt.callsOf] at hcalls
    rw [drawn_add]
    exact (h.fragment (hT.mono (Nat.le_refl n) (by omega)) fun c hc =>
      hcalls c (List.mem_append_left _ hc)).append
      (hs.fragment (hT.mono (Nat.le_add_right n _) (by omega)) fun c hc =>
        hcalls c (List.mem_append_right _ hc))

end

/-! ## Procedures -/

theorem EntryCode.fragment {layout : FrameLayout} {size : Word} {code : List Line}
    (h : EntryCode layout size code) : Fragment T [] code := by
  cases h with
  | leaf _ => exact .cons_step .nil
  | frame _ _ => exact .cons_step (.cons_step (.cons_step (.cons_step .nil)))

theorem ExitCode.fragment {layout : FrameLayout} {size : Word} {code : List Line}
    (h : ExitCode layout size code) : Fragment T [] code := by
  cases h with
  | leaf _ => exact .cons_step (.cons_step .nil)
  | frame _ _ => exact .cons_step (.cons_step (.cons_step (.cons_step .nil)))

/-- The code of a procedure defines its name and the local labels that it takes. -/
theorem ProcDecl.Code.fragment {s : RegisterStack} {n : Nat} {d : ProcDecl} {code : List Line}
    (h : d.Code t s n code) (hT : Allows T n d.labels) (hcalls : ∀ c ∈ d.calls, T c.procedure) :
    Fragment T (d.name :: drawn n d.labels) code := by
  obtain ⟨-, -, hentry, hbody, hexit⟩ := h
  have h := (hentry.fragment.append (hbody.fragment hT hcalls)).append hexit.fragment
  rw [List.nil_append, List.append_nil] at h
  exact .cons_step (.cons_step (.cons_label h))

/-- The code of procedures defines their names and the local labels that they take. -/
theorem ProcDecl.CodeOf.fragment {s : RegisterStack} {n : Nat} {ds : List ProcDecl}
    {code : List Line} (h : ProcDecl.CodeOf t s n ds code)
    (hT : Allows T n (ProcDecl.labelsOf ds)) (hcalls : ∀ d ∈ ds, ∀ c ∈ d.calls, T c.procedure) :
    Fragment T (ds.map (·.name) ++ drawn n (ProcDecl.labelsOf ds)) code := by
  induction h with
  | nil => exact .nil
  | @cons n d ds _ _ hd hds ih =>
    rw [ProcDecl.labelsOf] at hT
    have h₁ := hd.fragment (hT.mono (Nat.le_refl n) (by omega)) (hcalls d (.head _))
    have h₂ := ih (hT.mono (Nat.le_add_right n _) (by omega)) fun d' hd' =>
      hcalls d' (.tail _ hd')
    refine (h₁.append h₂).perm (List.perm_iff_count.2 fun l => ?_)
    simp only [List.map_cons, ProcDecl.labelsOf, drawn_add, List.count_append, List.cons_append,
      List.count_cons]
    omega

end

end Spl
