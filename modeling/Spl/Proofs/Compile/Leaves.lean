import Spl.Proofs.Code.Twins
import Spl.Proofs.Compile.Faults
import Spl.Proofs.Compile.Passes
import Spl.Proofs.Frame.Leaves
import Spl.Proofs.Machine.Frames

/-!
# What the option for leaf frames changes

An accepted program is compiled twice, without leaf frames and with them. The tables differ in the
marks of frames. The modules differ in the blocks of procedures that call nothing: these have
another beginning and another end, and their bodies reach the same variables from another register.

* `Inst.rebase`: the instruction in a leaf frame for one in any other frame.
* `ProcDecl.LeafBlocks`: the two blocks of a procedure.
* `LeavesAgree`: the ends of the two compilations.
* `allocateAndGenerate_leaves`: the last two phases, without leaf frames and with them.
-/

namespace Spl

open SymbolTable Machine

variable {t : SymbolTable} {p : Program} {d : ProcDecl} {P : Procedure} {l r : Site}

/-! ## Instructions -/

namespace Inst

/-- The instruction in a leaf frame of `n` bytes for one in a frame with a frame pointer. Only the
addresses of variables differ, which are counted from the stack pointer. -/
def rebase (n : Word) : Inst → Inst
  | .alu .add target source (.immediate offset) =>
    if source = .framePointer then .alu .add target .stackPointer (.immediate (n + offset))
    else .alu .add target source (.immediate offset)
  | inst => inst

theorem rebase_of_isShared {n : Word} {inst : Inst} (h : inst.isShared .framePointer = true) :
    inst.rebase n = inst := by
  unfold rebase
  split
  · next target source offset =>
    exact if_neg (of_decide_eq_true h)
  · rfl

/-- Where one site reaches variables from the frame pointer, and the other one from the stack
pointer with the bias `n`, the instructions are rebased. -/
theorem Corresponds.rebase {n : Word} {x y : Inst} (h : x.Corresponds l r y)
    (hl : l.addressing.base = .framePointer) (hl₀ : l.addressing.bias = 0)
    (hr : r.addressing.base = .stackPointer) (hr₀ : r.addressing.bias = n)
    (hn : l.firstLabel = r.firstLabel) :
    y = x.rebase n ∧ ∀ target offset, x = .alu .add target .framePointer (.immediate offset) →
      (n + offset).toInt = n.toInt + offset.toInt := by
  cases h with
  | @address target offset w w' hw hw' =>
    rw [hl₀] at hw
    rw [hr₀] at hw'
    have hsum := Word.eq_add_of_sum hw
    rw [Int32.zero_add] at hsum
    subst hsum
    have hsum' := Word.eq_add_of_sum hw'
    rw [hl, hr]
    refine ⟨by rw [hsum']; rfl, fun target' offset' hx => ?_⟩
    cases hx
    rw [← hsum']
    exact Word.sum_eq_ok_iff.1 hw'
  | label i => exact ⟨by rw [hn]; rfl, nofun⟩
  | jump i => exact ⟨by rw [hn]; rfl, nofun⟩
  | branch i => exact ⟨by rw [hn]; rfl, nofun⟩
  | shared hs =>
    rw [hl] at hs
    refine ⟨(rebase_of_isShared hs).symm, fun target offset hx => ?_⟩
    rw [hx] at hs
    cases hs

/-- Where two sites reach variables alike, and count labels from the same number, the instructions
are the same. -/
theorem Corresponds.eq {x y : Inst} (h : x.Corresponds l r y) (ha : r.addressing = l.addressing)
    (hn : l.firstLabel = r.firstLabel) : y = x := by
  cases h with
  | address hw hw' =>
    rw [ha, hw, Except.ok.injEq] at hw'
    rw [ha, hw']
  | label i => rw [hn]
  | jump i => rw [hn]
  | branch i => rw [hn]
  | shared hs => rfl

end Inst

/-- The line in a leaf frame of `n` bytes for a line in a frame with a frame pointer. -/
def Line.rebase (n : Word) (x : Line) : Line := { x with inst := x.inst.rebase n }

theorem Line.Corresponds.rebase {n : Word} {x y : Line} (h : x.Corresponds l r y)
    (hl : l.addressing.base = .framePointer) (hl₀ : l.addressing.bias = 0)
    (hr : r.addressing.base = .stackPointer) (hr₀ : r.addressing.bias = n)
    (hn : l.firstLabel = r.firstLabel) :
    y = x.rebase n ∧ ∀ target offset,
      x.inst = .alu .add target .framePointer (.immediate offset) →
        (n + offset).toInt = n.toInt + offset.toInt := by
  obtain ⟨i, c⟩ := x
  obtain ⟨i', c'⟩ := y
  obtain ⟨hi, hc⟩ := h
  obtain ⟨rfl, hsum⟩ := hi.rebase hl hl₀ hr hr₀ hn
  cases hc
  exact ⟨rfl, hsum⟩

theorem Line.Corresponds.eq {x y : Line} (h : x.Corresponds l r y)
    (ha : r.addressing = l.addressing) (hn : l.firstLabel = r.firstLabel) : y = x := by
  obtain ⟨i, c⟩ := x
  obtain ⟨i', c'⟩ := y
  obtain ⟨hi, hc⟩ := h
  cases hc
  cases hi.eq ha hn
  rfl

/-- The lines of a body in a leaf frame of `n` bytes are those of one in a frame with a frame
pointer, rebased. -/
theorem Line.map_rebase_eq {n : Word} {body body' : List Line}
    (h : List.Forall₂ (Line.Corresponds l r) body body') (hl : l.addressing.base = .framePointer)
    (hl₀ : l.addressing.bias = 0) (hr : r.addressing.base = .stackPointer)
    (hr₀ : r.addressing.bias = n) (hn : l.firstLabel = r.firstLabel) :
    body.map (Line.rebase n) = body' := by
  rw [← List.forall₂_eq_eq_eq, List.forall₂_map_left_iff]
  exact h.imp fun _ _ hxy => (hxy.rebase hl hl₀ hr hr₀ hn).1.symm

theorem Line.eq_of_forall₂_corresponds {body body' : List Line}
    (h : List.Forall₂ (Line.Corresponds l r) body body') (ha : r.addressing = l.addressing)
    (hn : l.firstLabel = r.firstLabel) : body = body' := by
  rw [← List.forall₂_eq_eq_eq]
  exact h.imp fun _ _ hxy => (hxy.eq ha hn).symm

/-! ## Frames -/

section

variable {layout : FrameLayout} {size : Word} {c c' : List Line}

theorem EntryCode.unique (h : EntryCode layout size c) (h' : EntryCode layout size c') :
    c = c' := by
  cases h with
  | leaf hl =>
    cases h' with
    | leaf _ => rfl
    | frame hl' _ => rw [hl] at hl'; cases hl'
  | frame hl hlink =>
    cases h' with
    | leaf hl' => rw [hl] at hl'; cases hl'
    | frame _ hlink' =>
      rw [hlink, Except.ok.injEq, Prod.mk.injEq] at hlink'
      rw [hlink'.1, hlink'.2]

theorem ExitCode.unique (h : ExitCode layout size c) (h' : ExitCode layout size c') : c = c' := by
  cases h with
  | leaf hl =>
    cases h' with
    | leaf _ => rfl
    | frame hl' _ => rw [hl] at hl'; cases hl'
  | frame hl hlink =>
    cases h' with
    | leaf hl' => rw [hl] at hl'; cases hl'
    | frame _ hlink' =>
      rw [hlink, Except.ok.injEq, Prod.mk.injEq] at hlink'
      rw [hlink'.1, hlink'.2]

end

/-- While a body runs, an offset from the frame pointer in the first frame and the offset plus `n`
from the stack pointer in the second one are the same address: the offset from the stack pointer
with which the procedure was entered. -/
structure SameAddresses (layout₀ layout₁ : FrameLayout) (size n : Word) : Prop where
  framePointer : ∀ σ₀ σ offset, InFrame layout₀ size σ₀ σ →
    σ.read .framePointer + offset = σ₀.read .stackPointer + offset
  stackPointer : ∀ σ₀ σ offset, InFrame layout₁ n σ₀ σ →
    σ.read .stackPointer + (n + offset) = σ₀.read .stackPointer + offset

/-- The given code takes the machine into the frame of a procedure. -/
def Enters (layout : FrameLayout) (size : Word) (entry : List Line) : Prop :=
  ∀ div program k X σ,
    Leads div program (fun c => c.code = k ∧ InFrame layout size σ c.state) X ⟨entry ++ k, σ⟩

/-! ## Procedures -/

/-- The blocks of a procedure in the modules without leaf frames and with them, whose tables are
`t₀` and `t₁`. A procedure that calls nothing gets a leaf frame of the size of its local variables.
The bodies of its two blocks have the same lines, up to the addresses of variables. -/
inductive ProcDecl.LeafBlocks (t₀ t₁ : SymbolTable) (d : ProcDecl) : List Line × List Line → Prop
  | calls {block : List Line} : d.calls ≠ [] → LeafBlocks t₀ t₁ d (block, block)
  | leaf {P₀ P₁ : Procedure} {size n : Word} {entry₀ entry₁ body exit₀ exit₁ : List Line} :
      d.calls = [] →
      t₀.procedure? d.name = some P₀ → t₁.procedure? d.name = some P₁ →
      P₀.layout.frameSize = .ok (some size) → P₁.layout.frameSize = .ok (some n) →
      P₁.layout.localArea = some n →
      EntryCode P₀.layout size entry₀ → EntryCode P₁.layout n entry₁ →
      ExitCode P₀.layout size exit₀ → ExitCode P₁.layout n exit₁ →
      Enters P₀.layout size entry₀ → Enters P₁.layout n entry₁ →
      SameAddresses P₀.layout P₁.layout size n →
      (∀ x ∈ body, ∀ target offset, x.inst = .alu .add target .framePointer (.immediate offset) →
        (n + offset).toInt = n.toInt + offset.toInt) →
      LeafBlocks t₀ t₁ d
        (d.block entry₀ body exit₀, d.block entry₁ (body.map (Line.rebase n)) exit₁)

theorem Placed.enters {leaves : Bool} {size : Word} {entry : List Line} (hP : t.Declares d P)
    (hp : Placed leaves t d P) (hf : P.Framed size) (hentry : EntryCode P.layout size entry) :
    Enters P.layout size entry := by
  intro div program k X σ
  refine (hentry.leads fun old ret hlink => hp.linkage_ne hP hf.size hlink).mono ?_ fun _ _ h => h
  exact fun c hc => ⟨hc.1, hc.2.1⟩

theorem sameAddresses {P₀ P₁ : Procedure} {size n : Word} (hf : P₀.Framed size)
    (h₀ : P₀.layout.isLeaf = false) (h₁ : P₁.layout.isLeaf = true) :
    SameAddresses P₀.layout P₁.layout size n where
  framePointer σ₀ σ offset hσ := by
    have hplace := hσ.place hf.linkage offset
    rw [Procedure.addressing_of_not_leaf h₀] at hplace
    rwa [Int32.zero_add] at hplace
  stackPointer σ₀ σ offset hσ := by
    have hplace := hσ.place (fun hl => by rw [h₁] at hl; cases hl) offset
    rwa [Procedure.addressing_of_leaf h₁] at hplace

/-- Two tables that differ in marks only agree on what a body names. -/
theorem agrees_unmarked {a b : Addressing} {n m : Nat} (ha : a.scope = b.scope)
    (hne : a.base ≠ .zero) (hfree : a.base.isFree = false) :
    Site.Agrees ⟨t.unmarked, a, n⟩ ⟨t, b, m⟩ where
  variable_eq name := by
    unfold variableAt
    rw [find?_unmarked, ha]
    cases t.find? b.scope name with
    | none => rfl
    | some e => cases e <;> rfl
  parameters_eq name := by
    rw [procedure?_unmarked]
    cases t.procedure? name <;> rfl
  base_ne := hne
  base_isFree := hfree

/-- The base register of a procedure is one that the code of its body leaves alone. -/
theorem Procedure.addressing_base_kept (P : Procedure) (size : Word) :
    (P.addressing size).base ≠ .zero ∧ (P.addressing size).base.isFree = false := by
  have h : Reg.stackPointer ≠ .zero ∧ Reg.framePointer ≠ .zero := by decide
  unfold addressing
  split
  · exact ⟨h.1, rfl⟩
  · exact ⟨h.2, rfl⟩

/-- The size of a placed frame is known, or its sum overflows when the code of the procedure is
generated. -/
theorem Placed.framed_or_fault {leaves : Bool} (hP : t.Declares d P) (hp : Placed leaves t d P)
    (g : Generator) :
    (∃ size, P.Framed size) ∨ d.code t g = .error (.fault (.overflow .addition)) g := by
  rcases hp.frameSize_cases hP with ⟨size, hsize, hlink⟩ | ⟨hsize, -⟩
  · exact .inl ⟨size, hsize, hlink⟩
  · right
    unfold ProcDecl.code
    rw [hP.procedure]
    dsimp only
    rw [hsize]
    rfl

/-- A procedure without leaf frames and with them. -/
theorem ProcDecl.code_leaves (h₀ : Allocated false t.unmarked p) (h₁ : Allocated true t p)
    (hd : d ∈ p.procedures) {g h : Generator} (hr : h.registers = g.registers)
    (hn : g.nextLabel = h.nextLabel) :
    Twin (fun _ g' _ h' => ∃ k b, d.LeafBlocks t.unmarked t b ∧ g' = g.add k b.1 ∧
      h' = h.add k b.2) (d.code t.unmarked g) (d.code t h) := by
  obtain ⟨P₀, hP₀, hp₀⟩ := h₀.placed d hd
  obtain ⟨P₁, hP₁, hp₁⟩ := h₁.placed d hd
  have hP := hP₀.procedure
  rw [procedure?_unmarked, hP₁.procedure, Option.map_some, Option.some.injEq] at hP
  subst hP
  obtain ⟨size, hf₀⟩ | hfault := hp₀.framed_or_fault hP₀ g
  swap
  · rw [hfault]
    exact .faultLeft
  obtain ⟨n, hf₁⟩ | hfault := hp₁.framed_or_fault hP₁ h
  swap
  · rw [hfault]
    exact .faultRight
  have hbase := P₁.unmarked.addressing_base_kept size
  refine (code_twin hP₀.procedure hP₁.procedure hf₀ hf₁ hr rfl rfl (agrees_unmarked ?_ hbase.1
    hbase.2)).mono ?_
  · rw [Procedure.addressing_scope, Procedure.addressing_scope]
    rfl
  intro _ g' _ h' hrun
  obtain ⟨k, entry₀, entry₁, body₀, body₁, exit₀, exit₁, hentry₀, hentry₁, hbody, hexit₀, hexit₁,
    rfl, rfl⟩ := hrun
  cases hc : d.calls with
  | nil =>
    have hleaf : P₁.layout.isLeaf = true := by rw [hp₁.layout, frame, hc]; rfl
    have hframe : P₁.unmarked.layout.isLeaf = false := rfl
    have hn' := hf₁.size
    rw [hp₁.layout, frameSize_of_leaf (by rw [hc]; rfl), Except.ok.injEq, Option.some.injEq] at hn'
    rw [Procedure.addressing_of_not_leaf hframe, Procedure.addressing_of_leaf hleaf] at hbody
    cases Line.map_rebase_eq hbody rfl rfl rfl rfl hn
    refine ⟨k, _, .leaf hc hP₀.procedure hP₁.procedure hf₀.size hf₁.size
      (by rw [hp₁.layout, ← hn']; rfl) hentry₀ hentry₁ hexit₀ hexit₁ (hp₀.enters hP₀ hf₀ hentry₀)
      (hp₁.enters hP₁ hf₁ hentry₁) (sameAddresses hf₀ hframe hleaf) fun x hx => ?_, rfl, rfl⟩
    obtain ⟨y, hxy⟩ := exists_of_forall₂_left hbody hx
    exact (hxy.rebase rfl rfl rfl rfl hn).2
  | cons c cs =>
    have hP : P₁.unmarked = P₁ := by
      have hl : P₁.layout.isLeaf = false := by rw [hp₁.layout, frame, hc]; rfl
      unfold Procedure.unmarked
      rw [← hl]
    rw [hP] at hf₀ hentry₀ hexit₀ hbody
    have hsize : size = n := by simpa [hf₀.size] using hf₁.size
    subst hsize
    cases hentry₀.unique hentry₁
    cases hexit₀.unique hexit₁
    cases Line.eq_of_forall₂_corresponds hbody rfl hn
    exact ⟨k, _, .calls (by rw [hc]; exact List.cons_ne_nil c cs), rfl, rfl⟩

/-! ## Programs -/

/-- The procedures of a program, one after the other. -/
theorem codeOfProcedures_leaves (h₀ : Allocated false t.unmarked p) (h₁ : Allocated true t p) :
    ∀ {l : List ProcDecl} {g h : Generator}, (∀ d ∈ l, d ∈ p.procedures) →
      h.registers = g.registers → g.nextLabel = h.nextLabel →
      Twin (fun _ g' _ h' => ∃ (k : Nat) (bs : List (List Line × List Line)),
          List.Forall₂ (ProcDecl.LeafBlocks t.unmarked t) l bs ∧
          g' = g.add k (bs.flatMap Prod.fst) ∧ h' = h.add k (bs.flatMap Prod.snd))
        (codeOfProcedures t.unmarked l g) (codeOfProcedures t l h)
  | [], g, h, _, _, _ =>
    .ok ⟨0, [], .nil, Generator.add_zero_nil.symm, Generator.add_zero_nil.symm⟩
  | d :: l, g, h, hl, hr, hn => by
    unfold codeOfProcedures
    refine (ProcDecl.code_leaves h₀ h₁ (hl d (.head _)) hr hn).bind ?_
    intro _ _ _ _ hrun
    obtain ⟨k, b, hb, rfl, rfl⟩ := hrun
    have hrest := codeOfProcedures_leaves (g := g.add k b.1) (h := h.add k b.2) h₀ h₁
      (fun d' hd' => hl d' (.tail _ hd')) hr (congrArg (· + k) hn)
    refine hrest.mono ?_
    intro _ _ _ _ hrun
    obtain ⟨k', bs, hbs, rfl, rfl⟩ := hrun
    exact ⟨k + k', b :: bs, .cons hb hbs, by simp, by simp⟩

/-- The ends of the two compilations: both modules consist of the blocks of the procedures, or both
compilations fail with the same error. The tables differ in the marks of frames. -/
inductive LeavesAgree (p : Program) (t : SymbolTable) :
    EStateM.Result (Failure CodegenError) SymbolTable (List Line) →
    EStateM.Result (Failure CodegenError) SymbolTable (List Line) → Prop
  | ok {blocks : List (List Line × List Line)} :
      List.Forall₂ (ProcDecl.LeafBlocks t.unmarked t) p.procedures blocks →
      LeavesAgree p t (.ok (prologueLines ++ blocks.flatMap Prod.fst) t.unmarked)
        (.ok (prologueLines ++ blocks.flatMap Prod.snd) t)
  | error {e : Located CodegenError} :
      LeavesAgree p t (.error (.error e) t.unmarked) (.error (.error e) t)

theorem Program.code_leaves (h₀ : Allocated false t.unmarked p) (h₁ : Allocated true t p) :
    Twin (fun _ g _ h => ∃ bs : List (List Line × List Line),
        List.Forall₂ (ProcDecl.LeafBlocks t.unmarked t) p.procedures bs ∧
        g.lines.toList = prologueLines ++ bs.flatMap Prod.fst ∧
        h.lines.toList = prologueLines ++ bs.flatMap Prod.snd)
      (p.code t.unmarked {}) (p.code t {}) := by
  unfold Program.code
  refine .bind (.of_ends prologue_ends prologue_ends) ?_
  intro _ _ _ _ hrun
  obtain ⟨rfl, rfl⟩ := hrun
  refine (codeOfProcedures_leaves h₀ h₁ (fun d hd => hd) rfl rfl).mono ?_
  intro _ _ _ _ hrun
  obtain ⟨k, bs, hbs, rfl, rfl⟩ := hrun
  exact ⟨bs, hbs, by simp [Generator.add], by simp [Generator.add]⟩

/-- The last two phases where the allocation succeeds. -/
theorem allocateAndGenerate_of_ok {o : Options} {t t' : SymbolTable}
    (h : allocate o.leaves p t = .ok () t') :
    (allocateAndGenerate o p).run t =
      match p.code t' {} with
      | .ok _ g => .ok g.lines.toList t'
      | .error e _ => .error e t' := by
  rw [allocateAndGenerate_of_allocated h]
  unfold generate
  have hrun : (p.code t').run {} = p.code t' {} := rfl
  rw [hrun]
  cases p.code t' {} <;> rfl

/-- The last two phases of an accepted program fail with a fault only by an overflow. -/
theorem Accepted.ne_fault (hA : Accepted t p) {o : Options}
    (h : ∀ op t', (allocateAndGenerate o p).run t ≠ .error (.fault (.overflow op)) t') (f : Fault)
    (t' : SymbolTable) : (allocateAndGenerate o p).run t ≠ .error (.fault f) t' := by
  intro hr
  have hf : f = .overflow .addition ∧ True :=
    (allocateAndGenerate_ends (A := True) hA (.inr trivial)).error hr
  rw [hf.1] at hr
  exact h _ _ hr

/-- A procedure is marked in the allocated table exactly if it is one of the program and calls
nothing. -/
theorem Accepted.isLeaf_iff (hA : Accepted t p) (hu : t.IsUnmarked) {t' : SymbolTable}
    (hr : allocate true p t = .ok () t') {name : String} (hP : t'.procedure? name = some P) :
    P.layout.isLeaf = true ↔ ∃ d ∈ p.procedures, d.name = name ∧ d.calls = [] := by
  have hnd := hA.nodup_names
  have hends : Ends (SumFault True) _ (allocate true p) t :=
    allocateProcedures_ends hA (fun d hd => hd) hnd (.inr trivial)
  obtain ⟨hA', hw, hplaced⟩ := hends.ok hr
  by_cases hname : name ∈ p.procedures.map (·.name)
  · obtain ⟨d, hd, rfl⟩ := List.mem_map.1 hname
    obtain ⟨Q, hQ, hp⟩ := hplaced d hd
    have hPQ := hQ.procedure
    rw [hP, Option.some.injEq] at hPQ
    rw [hPQ, hp.layout]
    show (true && d.calls.isEmpty) = true ↔ _
    rw [Bool.true_and, List.isEmpty_iff]
    refine ⟨fun hc => ⟨d, hd, rfl, hc⟩, fun h => ?_⟩
    obtain ⟨d', hd', hn, hc⟩ := h
    rwa [List.inj_on_of_nodup_map hnd hd' hd hn] at hc
  · rw [hw.procedure?_of_not] at hP
    · have hm : t.unmarked.procedure? name = t.procedure? name := by rw [hu]
      rw [procedure?_unmarked, hP, Option.map_some, Option.some.injEq] at hm
      rw [← hm]
      refine ⟨fun h => absurd h Bool.false_ne_true, fun h => ?_⟩
      obtain ⟨d, hd, rfl, -⟩ := h
      exact absurd (List.mem_map_of_mem hd) hname
    · rintro ⟨d, hd, Q, hQ, ⟨-, rfl⟩ | h⟩
      · exact hname (List.mem_map_of_mem hd)
      · exact hQ.ne_global h.symm

/-- The last two phases of an accepted program, without leaf frames and with them, where no sum
overflows. The allocated tables differ in the marks of frames: with leaf frames, the procedures of
the program that call nothing are marked. Both runs give a module or both fail with the same error.
The modules differ in the blocks of the marked procedures, whose bodies have the same lines, up to
the addresses of variables, which are the same addresses in both. -/
theorem allocateAndGenerate_leaves (o : Options) (p : Program) (t : SymbolTable)
    (ht : (buildAndCheck o p).answer = .ok t)
    (h₀ : ∀ op t', (allocateAndGenerate { o with leaves := false } (buildAndCheck o p).tree).run t ≠
      .error (.fault (.overflow op)) t')
    (h₁ : ∀ op t', (allocateAndGenerate { o with leaves := true } (buildAndCheck o p).tree).run t ≠
      .error (.fault (.overflow op)) t') :
    ∃ t₁ : SymbolTable,
      (∀ name P, t₁.procedure? name = some P → (P.layout.isLeaf = true ↔
        ∃ d ∈ (buildAndCheck o p).tree.procedures, d.name = name ∧ d.calls = [])) ∧
      LeavesAgree (buildAndCheck o p).tree t₁
        ((allocateAndGenerate { o with leaves := false } (buildAndCheck o p).tree).run t)
        ((allocateAndGenerate { o with leaves := true } (buildAndCheck o p).tree).run t) := by
  have hA := Accepted.of_ok ht
  have hu : t.IsUnmarked := (buildAndCheck_unmarked o p).of_ok ht
  generalize (buildAndCheck o p).tree = q at *
  have hne₀ := hA.ne_fault h₀
  have hne₁ := hA.ne_fault h₁
  have hmirror := allocate_mirrors true q t
  rw [hu] at hmirror
  cases hr : allocate true q t with
  | error f t₁ => exact absurd (allocateAndGenerate_of_error hr) (hne₁ f t₁)
  | ok _ t₁ =>
    rw [hr] at hmirror
    have hal₀ : Allocated false t₁.unmarked q :=
      (allocate_ends (A := True) hA (.inr trivial)).ok hmirror
    have hal₁ : Allocated true t₁ q := (allocate_ends (A := True) hA (.inr trivial)).ok hr
    refine ⟨t₁, fun name P hP => hA.isLeaf_iff hu hr hP, ?_⟩
    have hrun₀ := allocateAndGenerate_of_ok (o := { o with leaves := false }) hmirror
    have hrun₁ := allocateAndGenerate_of_ok (o := { o with leaves := true }) hr
    have htwin := Program.code_leaves hal₀ hal₁
    rw [hrun₀] at hne₀ ⊢
    rw [hrun₁] at hne₁ ⊢
    generalize q.code t₁.unmarked {} = x at *
    generalize q.code t₁ {} = y at *
    cases htwin with
    | ok h =>
      obtain ⟨bs, hbs, hg, hh⟩ := h
      dsimp only
      rw [hg, hh]
      exact .ok hbs
    | error => exact .error
    | faultLeft => exact absurd rfl (hne₀ _ _)
    | faultRight => exact absurd rfl (hne₁ _ _)

/-- A fault of the last two phases is one of the compilation. -/
theorem ne_fault_of_compile {o : Options} {f : Fault} (ht : (buildAndCheck o p).answer = .ok t)
    (h : (compile o p).answer ≠ .error (.fault f)) (t' : SymbolTable) :
    (allocateAndGenerate o (buildAndCheck o p).tree).run t ≠ .error (.fault f) t' := by
  intro hr
  apply h
  unfold compile
  simp only [ht, Except.mapError, bind, Except.bind, hr]
  rfl

/-- In `squares` one procedure calls nothing, and the other one makes calls. -/
theorem allocateAndGenerate_leaves_squares : ∃ t, (buildAndCheck {} squares).answer = .ok t ∧
    (∀ op t', (allocateAndGenerate { leaves := false } (buildAndCheck {} squares).tree).run t ≠
      .error (.fault (.overflow op)) t') ∧
    (∀ op t', (allocateAndGenerate { leaves := true } (buildAndCheck {} squares).tree).run t ≠
      .error (.fault (.overflow op)) t') ∧
    (buildAndCheck {} squares).tree.procedures.map (·.calls.isEmpty) = [true, false] ∧
    ∃ t₁ : SymbolTable,
      (∀ name P, t₁.procedure? name = some P → (P.layout.isLeaf = true ↔
        ∃ d ∈ (buildAndCheck {} squares).tree.procedures, d.name = name ∧ d.calls = [])) ∧
      LeavesAgree (buildAndCheck {} squares).tree t₁
        ((allocateAndGenerate { leaves := false } (buildAndCheck {} squares).tree).run t)
        ((allocateAndGenerate { leaves := true } (buildAndCheck {} squares).tree).run t) := by
  have hsome : (buildAndCheck {} squares).answer.toOption.isSome = true := by decide +kernel
  have hleaves : ∀ leaves, (compile { leaves } squares).answer.toOption.isSome = true := by
    decide +kernel
  have hcalls : (buildAndCheck {} squares).tree.procedures.map (·.calls.isEmpty) =
      [true, false] := by decide +kernel
  have hfault : ∀ leaves f, (compile { leaves } squares).answer ≠ .error (.fault f) := by
    intro leaves f
    obtain ⟨lines, hlines⟩ := exists_ok_of_isSome (hleaves leaves)
    rw [hlines]
    exact nofun
  obtain ⟨t, ht⟩ := exists_ok_of_isSome hsome
  have h₀ := fun op =>
    ne_fault_of_compile (o := { leaves := false }) ht (hfault false (.overflow op))
  have h₁ := fun op =>
    ne_fault_of_compile (o := { leaves := true }) ht (hfault true (.overflow op))
  exact ⟨t, ht, h₀, h₁, hcalls, allocateAndGenerate_leaves {} squares t ht h₀ h₁⟩

end Spl
