import Mathlib.Logic.Relation
import Spl.Proofs.Code.BodyLines
import Spl.Proofs.Machine.Frames
import Spl.Proofs.Machine.Statements

/-!
# Runs of procedures

The block of a procedure in a module: the code from its label to its return. A run through the block
may go around loops and call other procedures, which return behind the call. It never leaves the
block before the return, and the body keeps the frame, so the return finds the registers that the
caller relies on as they were.

* `Block`: where the code of a procedure stands in a module.
* `Block.OwnLabels`, `Block.Step`: what is assumed of a run.
* `Block.Inside`, `Block.Inside.step`: the invariant of the body.
* `Block.Run.restores`: the registers at the return.
* `Block.leaf_code`: the code of leaf frames.
* `Block.exists_run`, `Block.exists_run_of_calls`: procedures that get to their return.
-/

namespace Spl

open Machine

/-- The register that an instruction writes. A call writes the return address. -/
def Inst.written? : Inst → Option Reg
  | .alu _ target _ _ | .load target _ _ => some target
  | .call _ => some .returnAddress
  | .importName _ | .exportName _ | .code | .align _ | .label _ | .blank | .store .. | .branch ..
  | .jump _ | .jumpRegister _ => none

/-- True of instructions that call nothing, and leave the frame pointer and the return address
alone. -/
def Inst.KeepsLinkage (inst : Inst) : Prop :=
  (∀ name, inst ≠ .call name) ∧ inst.written? ≠ some .framePointer ∧
    inst.written? ≠ some .returnAddress

theorem Inst.KeepsLinkage.of_written {inst : Inst} {r : Reg} (hw : inst.written? = some r)
    (hf : r ≠ .framePointer) (hr : r ≠ .returnAddress) : inst.KeepsLinkage := by
  refine ⟨fun name heq => ?_, fun heq => ?_, fun heq => ?_⟩
  · rw [heq] at hw
    exact hr (Option.some.inj hw).symm
  · exact hf (Option.some.inj (hw.symm.trans heq))
  · exact hr (Option.some.inj (hw.symm.trans heq))

theorem EntryCode.keepsLinkage {layout : FrameLayout} {size : Word} {entry : List Line}
    (h : EntryCode layout size entry) (hl : layout.isLeaf = true) :
    ∀ line ∈ entry, line.inst.KeepsLinkage := by
  cases h with
  | leaf _ => exact List.forall_mem_singleton.2 (.of_written rfl (by decide) (by decide))
  | frame hframe _ =>
    rw [hframe] at hl
    cases hl

theorem ExitCode.keepsLinkage {layout : FrameLayout} {size : Word} {exit : List Line}
    (h : ExitCode layout size exit) (hl : layout.isLeaf = true) :
    ∀ line ∈ exit, line.inst.KeepsLinkage := by
  cases h with
  | leaf _ =>
    exact List.forall_mem_cons.2 ⟨.of_written rfl (by decide) (by decide),
      List.forall_mem_singleton.2 ⟨nofun, nofun, nofun⟩⟩
  | frame hframe _ =>
    rw [hframe] at hl
    cases hl

theorem ExitCode.two_le_length {layout : FrameLayout} {size : Word} {exit : List Line}
    (h : ExitCode layout size exit) : 2 ≤ exit.length := by
  cases h with
  | leaf _ => exact Nat.le_refl 2
  | frame _ _ => exact Nat.le_add_left 2 2

/-- The code of a procedure, from its label on, in the lines of a module. -/
structure Block (t : SymbolTable) (d : ProcDecl) (lines : List Line) where
  procedure : Procedure
  size : Word
  before : List Line
  entry : List Line
  body : List Line
  exit : List Line
  after : List Line
  procedure_eq : t.procedure? d.name = some procedure
  frameSize : procedure.layout.frameSize = .ok (some size)
  entryCode : EntryCode procedure.layout size entry
  bodyCode : ∃ s n, Stmt.CodeOf t (procedure.addressing size) s n d.body body
  exitCode : ExitCode procedure.layout size exit
  lines_eq : lines = before ++ plain (.label d.name) :: (entry ++ (body ++ (exit ++ after)))

namespace Block

variable {t : SymbolTable} {d : ProcDecl} {lines : List Line}

/-- The lines of a block. -/
def code (B : Block t d lines) : List Line :=
  plain (.label d.name) :: (B.entry ++ (B.body ++ B.exit))

/-- The beginning of a procedure: at its label. -/
def start (B : Block t d lines) (σ : State) : Config :=
  ⟨plain (.label d.name) :: (B.entry ++ (B.body ++ (B.exit ++ B.after))), σ⟩

/-- The end of a procedure: at its return. -/
def finish (B : Block t d lines) (σ : State) : Config :=
  ⟨noted (.jumpRegister .returnAddress) "return" :: B.after, σ⟩

/-- The code that is left where `k` is left of the body. -/
def behind (B : Block t d lines) (k : List Line) : List Line := k ++ (B.exit ++ B.after)

/-- The labels of the body are found where the body defines them. -/
def OwnLabels (B : Block t d lines) : Prop :=
  ∀ l ∈ labelsIn B.body, ∃ k, k <:+ B.body ∧ (k.head?.bind (·.inst.label?)) = some l ∧
    codeFrom l lines = some (B.behind k)

/-- The addresses of the linkage words, where `sp` is the stack pointer at the beginning. -/
def linkageWords (B : Block t d lines) (sp : Word) : List Word :=
  B.procedure.layout.linkageWords B.size sp

/-- A line of the body that is executed next does not store into the linkage words. -/
def Spares (B : Block t d lines) (sp : Word) (c : Config) : Prop :=
  ∀ line k, line :: k <:+ B.body → c.code = B.behind (line :: k) →
    ∀ source base offset, line.inst = .store source base offset →
      c.state.read base + offset ∉ B.linkageWords sp

end Block

/-- A branch to the error routine that is executed next is not taken. -/
def NotTrapped (c : Config) : Prop :=
  ∀ line rest, c.code = line :: rest → ∀ cond left right,
    line.inst = .branch cond left right indexErrorRoutine →
      cond.holds (c.state.read left) (c.state.read right) = false

namespace Block

variable {t : SymbolTable} {d : ProcDecl} {lines : List Line}

/-- A step of a run through a block: a step of the machine that neither traps nor stores into the
linkage words, or a call that returns behind the line with the stack pointer, the frame pointer and
the linkage words as they were. Nothing is assumed of stores and calls in a leaf frame. -/
inductive Step (div : Word → Word → Option Word) (B : Block t d lines) (sp : Word) :
    Config → Config → Prop
  | goes {c c' : Config} : step div lines c = .goes c' → NotTrapped c → B.Spares sp c →
      Step div B sp c c'
  | returns {line : Line} {procedure : String} {rest : List Line} {σ σ' : State} :
      line.inst = .call procedure →
      (B.procedure.layout.isLeaf = false → σ'.read .stackPointer = σ.read .stackPointer ∧
        σ'.read .framePointer = σ.read .framePointer ∧
        ∀ x ∈ B.linkageWords sp, σ'.memory x = σ.memory x) →
      Step div B sp ⟨line :: rest, σ⟩ ⟨rest, σ'⟩

/-- A run from the label of a procedure to its return. -/
def Run (div : Word → Word → Option Word) (B : Block t d lines) (σ₀ σ : State) : Prop :=
  Relation.ReflTransGen (B.Step div (σ₀.read .stackPointer)) (B.start σ₀) (B.finish σ)

variable {div : Word → Word → Option Word} {B : Block t d lines} {sp : Word} {c c' : Config}
  {σ₀ σ : State}

/-- Where no label of the module is defined twice, the labels of a block are found in it. -/
theorem ownLabels_of_nodup (B : Block t d lines) (hn : (labelsIn lines).Nodup) : B.OwnLabels := by
  intro l hl
  obtain ⟨line, hline, hlabel⟩ := List.mem_filterMap.1 hl
  obtain ⟨front, k, hbody⟩ := List.append_of_mem hline
  refine ⟨line :: k, ⟨front, hbody.symm⟩, hlabel, codeFrom_of_suffix hn hlabel ?_⟩
  refine ⟨B.before ++ plain (.label d.name) :: (B.entry ++ front), ?_⟩
  refine Eq.trans ?_ B.lines_eq.symm
  rw [hbody]
  simp

/-! ## Code without branches -/

/-- Where a call comes next, the machine does not go on by itself. -/
theorem Step.eq_of_goes (h : B.Step div sp c c') {c₁ : Config} (hs : step div lines c = .goes c₁) :
    c' = c₁ := by
  cases h with
  | goes hs' _ _ =>
    rw [hs] at hs'
    cases hs'
    rfl
  | returns hcall _ =>
    rw [step, hcall] at hs
    cases hs

/-- A run to the return passes where the machine gets to. -/
theorem passes {Q : Config → Prop} (hl : Leads div lines Q (fun _ _ => False) c)
    (hr : Relation.ReflTransGen (B.Step div sp) c (B.finish σ)) :
    ∃ c', Q c' ∧ Relation.ReflTransGen (B.Step div sp) c' (B.finish σ) := by
  induction hl with
  | here hq => exact ⟨_, hq, hr⟩
  | next hs _ ih =>
    rcases hr.cases_head with rfl | ⟨c₁, hc₁, hr⟩
    · cases hs
    · rw [hc₁.eq_of_goes hs] at hr
      exact ih hr
  | halt _ hx => exact hx.elim

/-- A run from the return to the return is over. -/
theorem finish_eq {σ' : State}
    (hr : Relation.ReflTransGen (B.Step div sp) (B.finish σ') (B.finish σ)) : σ' = σ := by
  rcases hr.cases_head with heq | ⟨c₁, hc₁, -⟩
  · exact congrArg Config.state heq
  · unfold finish at hc₁
    cases hc₁ with
    | goes hs _ _ => cases hs
    | returns hcall _ => cases hcall

/-! ## The body -/

/-- The body of a block consists of instructions of bodies, whose labels are its own. -/
theorem bodyLines (B : Block t d lines) :
    BodyLines (· ∈ labelsIn B.body) (fun name => ∃ c ∈ d.calls, c.procedure = name) B.body := by
  obtain ⟨s, n, hcode⟩ := B.bodyCode
  have hf := hcode.fragment (T := fun _ => True) ⟨trivial, fun _ _ => trivial⟩ fun _ _ => trivial
  refine hcode.bodyLines (fun i hi hi' => ?_) fun c hc => ⟨c, hc, rfl⟩
  exact hf.labels.mem_iff.2 (mem_drawn.2 ⟨i, hi, hi', rfl⟩)

/-- The machine is inside the body of a block, and the frame is as it was taken. -/
def Inside (B : Block t d lines) (σ₀ : State) (c : Config) : Prop :=
  ∃ k, k <:+ B.body ∧ c.code = B.behind k ∧ InFrame B.procedure.layout B.size σ₀ c.state

/-- A label of the body leads into the body. -/
theorem OwnLabels.goto (h : B.OwnLabels) {l : String} (hl : l ∈ labelsIn B.body)
    (hσ : InFrame B.procedure.layout B.size σ₀ σ) (hs : goto lines l σ = .goes c') :
    B.Inside σ₀ c' := by
  obtain ⟨k, hk, -, hcode⟩ := h l hl
  rw [Machine.goto, hcode] at hs
  cases hs
  exact ⟨_, hk, rfl, hσ⟩

/-- The registers of the bank are none of those that a frame relies on. -/
theorem ne_of_isFree {r q : Reg} (hr : r.isFree = true) (hq : q.isFree = false) : q ≠ r := by
  intro heq
  rw [heq, hr] at hq
  cases hq

theorem inFrame_write {layout : FrameLayout} {size v : Word} {r : Reg}
    (hσ : InFrame layout size σ₀ σ) (hr : r.isFree = true) :
    InFrame layout size σ₀ (σ.write r v) :=
  hσ.of_unchanged (State.read_write_of_ne (ne_of_isFree hr rfl))
    (State.read_write_of_ne (ne_of_isFree hr rfl))
    (fun _ => State.read_write_of_ne (ne_of_isFree hr rfl)) fun _ _ => rfl

/-- A step of the machine inside of the body stays inside. -/
theorem Inside.goes (hL : B.OwnLabels) {line : Line} {k : List Line} (hk : line :: k <:+ B.body)
    (hσ : InFrame B.procedure.layout B.size σ₀ σ)
    (hs : step div lines ⟨B.behind (line :: k), σ⟩ = .goes c')
    (htrap : NotTrapped ⟨B.behind (line :: k), σ⟩)
    (hspare : B.Spares (σ₀.read .stackPointer) ⟨B.behind (line :: k), σ⟩) : B.Inside σ₀ c' := by
  have hk' : k <:+ B.body := (List.suffix_cons ..).trans hk
  have hline := B.bodyLines line (hk.subset (.head _))
  obtain ⟨inst, comment⟩ := line
  dsimp only at hline
  cases inst with
  | alu op target source operand =>
    have hs : execute div lines (B.behind k) σ (.alu op target source operand) = .goes c' := hs
    cases hv : op.apply div (σ.read source) (σ.operand operand) with
    | some v =>
      rw [execute, hv] at hs
      cases hs
      exact ⟨k, hk', rfl, inFrame_write hσ hline⟩
    | none =>
      rw [execute, hv] at hs
      cases hs
  | load target base offset =>
    cases hs
    exact ⟨k, hk', rfl, inFrame_write hσ hline⟩
  | store source base offset =>
    have hmiss := hspare _ k hk rfl source base offset rfl
    cases hs
    refine ⟨k, hk', rfl, hσ.of_unchanged rfl rfl (fun _ => rfl) fun x hx => ?_⟩
    apply Memory.set_of_ne
    intro heq
    rw [heq] at hx
    exact hmiss hx
  | label name =>
    cases hs
    exact ⟨k, hk', rfl, hσ⟩
  | branch cond left right target =>
    have hs : execute div lines (B.behind k) σ (.branch cond left right target) = .goes c' := hs
    rw [execute] at hs
    by_cases hholds : cond.holds (σ.read left) (σ.read right) = true
    · rw [if_pos hholds] at hs
      rcases hline with rfl | htarget
      · rw [htrap _ _ rfl cond left right rfl] at hholds
        cases hholds
      · exact hL.goto htarget hσ hs
    · rw [if_neg hholds] at hs
      cases hs
      exact ⟨k, hk', rfl, hσ⟩
  | jump target => exact hL.goto hline hσ hs
  | call procedure => cases hs
  | importName _ | exportName _ | code | align _ | blank | jumpRegister _ => exact hline.elim

/-- One step inside of the body stays inside, or goes on behind it. -/
theorem Inside.step (hL : B.OwnLabels)
    (hleaf : B.procedure.layout.isLeaf = true → d.calls = []) {line : Line} {k : List Line}
    (hk : line :: k <:+ B.body) (hσ : InFrame B.procedure.layout B.size σ₀ σ)
    (hs : B.Step div (σ₀.read .stackPointer) ⟨B.behind (line :: k), σ⟩ c') : B.Inside σ₀ c' := by
  cases hs with
  | goes hs htrap hspare => exact Inside.goes hL hk hσ hs htrap hspare
  | returns hcall hreturns =>
    have hline := B.bodyLines line (hk.subset (.head _))
    rw [hcall] at hline
    obtain ⟨c, hc, -⟩ := hline
    -- a leaf frame calls nothing
    have hframe : B.procedure.layout.isLeaf = false := by
      by_contra hl
      rw [hleaf (by simpa using hl)] at hc
      cases hc
    obtain ⟨hsp, hfp, hm⟩ := hreturns hframe
    refine ⟨k, (List.suffix_cons ..).trans hk, rfl, hσ.of_unchanged hsp hfp (fun hl => ?_) hm⟩
    rw [hframe] at hl
    cases hl

/-- Where the return comes next, the body is over. -/
theorem finish_not_inside (σ : State) : ¬B.Inside σ₀ (B.finish σ) := by
  intro h
  obtain ⟨k, -, hcode, -⟩ := h
  have hlen := congrArg List.length hcode
  have hexit := B.exitCode.two_le_length
  unfold finish behind at hlen
  rw [List.length_cons, List.length_append, List.length_append] at hlen
  omega

/-- A run from inside of the body to the return brings back what the caller relies on. -/
theorem Inside.restores (hL : B.OwnLabels)
    (hleaf : B.procedure.layout.isLeaf = true → d.calls = [])
    (hr : Relation.ReflTransGen (B.Step div (σ₀.read .stackPointer)) c (B.finish σ)) :
    B.Inside σ₀ c → σ.read .stackPointer = σ₀.read .stackPointer ∧
      σ.read .framePointer = σ₀.read .framePointer ∧
      σ.read .returnAddress = σ₀.read .returnAddress := by
  induction hr using Relation.ReflTransGen.head_induction_on with
  | refl => exact fun h => absurd h (finish_not_inside σ)
  | @head c c₁ hs hr ih =>
    intro h
    obtain ⟨k, hk, hcode, hσ⟩ := h
    obtain ⟨code, σ₁⟩ := c
    cases hcode
    cases k with
    | cons line k => exact ih (Inside.step hL hleaf hk hσ hs)
    | nil =>
      obtain ⟨⟨_, σ₂⟩, ⟨rfl, -, hregisters⟩, hr'⟩ :=
        passes (B.exitCode.leads (k := B.after) hσ) (.head hs hr)
      rw [← finish_eq hr']
      exact hregisters

/-- A run of a procedure brings back what its caller relies on. -/
theorem Run.restores (hL : B.OwnLabels) (hleaf : B.procedure.layout.isLeaf = true → d.calls = [])
    (hne : ∀ old ret, linkageOffsets B.procedure.layout = .ok (old, ret) → old - B.size ≠ ret)
    (hr : B.Run div σ₀ σ) : σ.read .stackPointer = σ₀.read .stackPointer ∧
      σ.read .framePointer = σ₀.read .framePointer ∧
      σ.read .returnAddress = σ₀.read .returnAddress := by
  obtain ⟨c, ⟨hcode, hσ, -⟩, hr'⟩ :=
    passes (.label (B.entryCode.leads (k := B.behind B.body) hne)) hr
  exact Inside.restores hL hleaf hr' ⟨B.body, List.suffix_refl _, hcode, hσ⟩

/-! ## Leaf frames -/

theorem keepsLinkage_of_body {T C : String → Prop} (hC : ∀ name, ¬C name) {inst : Inst}
    (h : inst.OfBody T C) : inst.KeepsLinkage := by
  cases inst with
  | alu op target source operand =>
    exact .of_written rfl (ne_of_isFree h rfl).symm (ne_of_isFree h rfl).symm
  | load target base offset =>
    exact .of_written rfl (ne_of_isFree h rfl).symm (ne_of_isFree h rfl).symm
  | call procedure => exact (hC procedure h).elim
  | store _ _ _ | label _ | branch _ _ _ _ | jump _ => exact ⟨nofun, nofun, nofun⟩
  | importName _ | exportName _ | code | align _ | blank | jumpRegister _ => exact h.elim

/-- The code of a procedure with a leaf frame calls nothing, and leaves the frame pointer and the
return address alone. -/
theorem leaf_code (hcalls : d.calls = []) (hl : B.procedure.layout.isLeaf = true) :
    ∀ line ∈ B.code, line.inst.KeepsLinkage := by
  have hbody : ∀ line ∈ B.body, line.inst.KeepsLinkage := by
    intro line hline
    refine keepsLinkage_of_body (fun name h => ?_) (B.bodyLines line hline)
    obtain ⟨c, hc, -⟩ := h
    rw [hcalls] at hc
    cases hc
  have hentry : ∀ line ∈ B.entry, line.inst.KeepsLinkage := B.entryCode.keepsLinkage hl
  have hexit : ∀ line ∈ B.exit, line.inst.KeepsLinkage := B.exitCode.keepsLinkage hl
  refine List.forall_mem_cons.2 ⟨⟨nofun, nofun, nofun⟩, ?_⟩
  exact List.forall_mem_append.2 ⟨hentry, List.forall_mem_append.2 ⟨hbody, hexit⟩⟩

/-! ## Runs -/

/-- A leaf frame has no linkage words to store into. -/
theorem spares_of_isLeaf (hl : B.procedure.layout.isLeaf = true) (c : Config) : B.Spares sp c := by
  intro line k _ _ source base offset _
  rw [linkageWords, FrameLayout.linkageWords_of_isLeaf hl]
  exact List.not_mem_nil

/-- A step of the machine that spares the linkage words is one of a run, as nothing goes on behind a
trap. -/
theorem Step.of_goes (hL : Linked lines) (hspare : B.Spares sp c)
    (hs : step div lines c = .goes c') : B.Step div sp c c' := by
  refine .goes hs ?_ hspare
  intro line rest hcode cond left right hinst
  by_contra htaken
  obtain ⟨_, σ⟩ := c
  cases hcode
  rw [step, hinst, execute, if_pos (by simpa using htaken), goto,
    codeFrom_of_not_mem hL.indexError] at hs
  cases hs

theorem exists_steps (hL : Linked lines) (hspare : ∀ c, B.Spares sp c)
    {Q : Config → Prop} (h : Leads div lines Q (fun _ _ => False) c) :
    ∃ c', Q c' ∧ Relation.ReflTransGen (B.Step div sp) c c' := by
  induction h with
  | here hq => exact ⟨_, hq, .refl⟩
  | @next c _ hs _ ih =>
    obtain ⟨c', hq, hr⟩ := ih
    exact ⟨c', hq, .head (.of_goes hL (hspare c) hs) hr⟩
  | halt _ hx => exact hx.elim

/-- Calls in the body that all return lead to its end. -/
theorem steps_of_calls (hcalls : ∀ line ∈ B.body, ∃ name, line.inst = .call name) :
    ∀ k, k <:+ B.body →
      Relation.ReflTransGen (B.Step div sp) ⟨B.behind k, σ⟩ ⟨B.behind [], σ⟩
  | [], _ => .refl
  | line :: k, hk => by
    obtain ⟨name, hname⟩ := hcalls line (hk.subset (.head _))
    have hreturns : B.Step div sp ⟨B.behind (line :: k), σ⟩ ⟨B.behind k, σ⟩ :=
      .returns hname fun _ => ⟨rfl, rfl, fun _ _ => rfl⟩
    exact .head hreturns (steps_of_calls hcalls k ((List.suffix_cons ..).trans hk))

/-- A procedure that only calls gets to its return if the calls return. -/
theorem exists_run_of_calls (B : Block t d lines) (hL : Linked lines)
    (hne : ∀ old ret, linkageOffsets B.procedure.layout = .ok (old, ret) → old - B.size ≠ ret)
    (hcalls : ∀ line ∈ B.body, ∃ name, line.inst = .call name) (σ₀ : State) :
    ∃ σ, B.Run div σ₀ σ := by
  have hspare (c : Config) : B.Spares (σ₀.read .stackPointer) c := by
    intro line k hk _ source base offset hstore
    obtain ⟨name, hname⟩ := hcalls line (hk.subset (.head _))
    rw [hname] at hstore
    cases hstore
  have hentry : Leads div lines _ (fun _ _ => False) (B.start σ₀) :=
    .label (B.entryCode.leads (k := B.behind B.body) hne)
  obtain ⟨⟨_, σ₁⟩, ⟨rfl, hσ₁, -⟩, htaken⟩ := exists_steps hL hspare hentry
  have hexit : Leads div lines _ (fun _ _ => False) ⟨B.behind [], σ₁⟩ :=
    B.exitCode.leads (k := B.after) hσ₁
  obtain ⟨⟨_, σ₂⟩, ⟨rfl, -⟩, hreturned⟩ := exists_steps hL hspare hexit
  exact ⟨σ₂, (htaken.trans (steps_of_calls hcalls B.body (List.suffix_refl _))).trans hreturned⟩

/-- The procedure gets to its return if its frame is a leaf frame and its body finishes, and it
returns in the memory in which the body finishes. -/
theorem exists_run (B : Block t d lines) (hL : Linked lines)
    (hl : B.procedure.layout.isLeaf = true) (hE : (t.typeEnv B.procedure.localScope).Fits)
    (hty : ∀ st ∈ d.body, st.WellTyped (t.typeEnv B.procedure.localScope)) {m : Memory}
    (hexec : Stmt.ExecOf div ⟨t, B.procedure.localScope, σ₀.read .stackPointer⟩ σ₀.memory d.body
      (.finished m)) : ∃ σ, B.Run div σ₀ σ ∧ σ.memory = m := by
  obtain ⟨s, n, hbody⟩ := B.bodyCode
  rw [Procedure.addressing_of_leaf hl] at hbody
  have hsuffix : B.body ++ (B.exit ++ B.after) <:+ lines := by
    refine ⟨B.before ++ plain (.label d.name) :: B.entry, Eq.trans ?_ B.lines_eq.symm⟩
    simp
  have hleads : Leads div lines (fun c => c.code = (B.finish σ₀).code ∧ c.state.memory = m)
      (fun _ _ => False) (B.start σ₀) := by
    refine .label ((B.entryCode.leads (k := B.behind B.body) fun old ret hlink => ?_).bind ?_
      fun _ _ hx => hx)
    · rw [FrameLayout.isLeaf_of_linkageOffsets hlink] at hl
      cases hl
    intro c hc
    obtain ⟨_, σ₁⟩ := c
    obtain ⟨rfl, hσ₁, hm₁⟩ := hc
    have hplace : σ₁.read .stackPointer + B.size = σ₀.read .stackPointer := by
      rw [hσ₁.stackPointer, Int32.sub_add_cancel]
    have hmemory : σ₁.memory = σ₀.memory := by
      funext x
      apply hm₁
      rw [FrameLayout.linkageWords_of_isLeaf hl]
      exact List.not_mem_nil
    refine (hexec.leads hL hE rfl hbody hty hsuffix ⟨hmemory, hplace⟩).bind ?_ ?_
    · intro c hc
      obtain ⟨_, σ₂⟩ := c
      obtain ⟨rfl, hkeeps, hend⟩ := hc
      cases hend
      have hσ₂ : InFrame B.procedure.layout B.size σ₀ σ₂ :=
        hσ₁.of_unchanged (hkeeps _ (.inl rfl)) (hkeeps _ (.inl rfl))
          (fun _ => hkeeps _ (.inl rfl)) fun x hx => by
            rw [FrameLayout.linkageWords_of_isLeaf hl] at hx
            cases hx
      refine (B.exitCode.leads hσ₂).mono ?_ fun _ _ hx => hx
      exact fun c hc => ⟨hc.1, hc.2.1⟩
    · intro _ _ hx
      obtain ⟨_, hx, -⟩ := hx
      cases hx
  obtain ⟨⟨_, σ⟩, ⟨rfl, hm⟩, hr⟩ := exists_steps (B := B) hL (spares_of_isLeaf hl) hleads
  exact ⟨σ, hr, hm⟩

end Block

end Spl
