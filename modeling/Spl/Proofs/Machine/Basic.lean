import Spl.Proofs.Code.Labels

/-!
# The machine

Runs of a piece of code on a machine with wrapping 32-bit registers and a memory of words. The
machine is at the lines that it has still to execute, and goes to a label by looking it up in the
whole piece. Which divisions have a result is left open.

* `Machine.step`: what one line does.
* `Machine.Runs`: a run to its end, with the number of its steps.
* `Machine.Leads`: where the machine gets to, or how it stops on the way.
* `codeFrom_eq`: a label that is defined once is found where it stands.
-/

namespace Spl

/-- A memory: the word at each address. -/
abbrev Memory := Word → Word

/-- Changes the word at an address. -/
def Memory.set (m : Memory) (address value : Word) : Memory :=
  fun b => if b = address then value else m b

/-! ## Operations -/

/-- The result of an operation, where `div` divides. -/
def AluOp.apply (div : Word → Word → Option Word) : AluOp → Word → Word → Option Word
  | .add, a, b => some (a + b)
  | .sub, a, b => some (a - b)
  | .mul, a, b => some (a * b)
  | .div, a, b => div a b

/-- True of the operands on which a branch is taken. The last condition compares without signs. -/
def Cond.holds : Cond → Word → Word → Bool
  | .eq, a, b => a == b
  | .ne, a, b => a != b
  | .lt, a, b => a.toInt < b.toInt
  | .le, a, b => a.toInt ≤ b.toInt
  | .gt, a, b => b.toInt < a.toInt
  | .ge, a, b => b.toInt ≤ a.toInt
  | .geu, a, b => b.toUInt32 ≤ a.toUInt32

/-- The code from the definition of a label on. -/
def codeFrom (label : String) : List Line → Option (List Line)
  | [] => none
  | line :: lines =>
    if line.inst.label? = some label then some (line :: lines) else codeFrom label lines

section
variable {l : String} {before rest : List Line}

theorem codeFrom_append (h : l ∉ labelsIn before) :
    codeFrom l (before ++ rest) = codeFrom l rest := by
  induction before with
  | nil => rfl
  | cons line before ih =>
    have hne : line.inst.label? ≠ some l := fun he => h (List.mem_filterMap.2 ⟨line, .head _, he⟩)
    rw [List.cons_append, codeFrom, if_neg hne]
    refine ih fun hl => h ?_
    obtain ⟨line', hl', he⟩ := List.mem_filterMap.1 hl
    exact List.mem_filterMap.2 ⟨line', .tail _ hl', he⟩

theorem codeFrom_of_not_mem {lines : List Line} (h : l ∉ labelsIn lines) :
    codeFrom l lines = none := by
  rw [← List.append_nil lines, codeFrom_append h]
  rfl

/-- A label that is defined once is found at the line that defines it. -/
theorem codeFrom_of_suffix {line : Line} {program : List Line} (hn : (labelsIn program).Nodup)
    (hl : line.inst.label? = some l) (h : line :: rest <:+ program) :
    codeFrom l program = some (line :: rest) := by
  obtain ⟨before, rfl⟩ := h
  have hmem : l ∈ labelsIn (line :: rest) := List.mem_filterMap.2 ⟨line, .head _, hl⟩
  rw [labelsIn_append] at hn
  rw [codeFrom_append fun hl' => List.disjoint_of_nodup_append hn hl' hmem]
  exact if_pos hl

theorem codeFrom_eq {program : List Line} (hn : (labelsIn program).Nodup)
    (h : plain (.label l) :: rest <:+ program) :
    codeFrom l program = some (plain (.label l) :: rest) := codeFrom_of_suffix hn rfl h

end

namespace Machine

/-- The registers and the memory. -/
structure State where
  registers : Reg → Word
  memory : Memory

namespace State

/-- The value of a register. Register 0 always reads as zero. -/
def read (σ : State) (r : Reg) : Word := if r = .zero then 0 else σ.registers r

/-- Changes a register. -/
def write (σ : State) (r : Reg) (value : Word) : State :=
  { σ with registers := fun q => if q = r then value else σ.registers q }

/-- Changes the word at an address. -/
def store (σ : State) (address value : Word) : State :=
  { σ with memory := σ.memory.set address value }

/-- The value of an operand. -/
def operand (σ : State) : Operand → Word
  | .register r => σ.read r
  | .immediate value => value

variable {σ : State} {q r : Reg} {a v : Word}

@[simp]
theorem read_zero : σ.read .zero = 0 := if_pos rfl

theorem read_write_self (h : r ≠ .zero) : (σ.write r v).read r = v := by
  rw [read, if_neg h]
  exact if_pos rfl

theorem read_write_of_ne (h : q ≠ r) : (σ.write r v).read q = σ.read q := by
  unfold read
  split
  · rfl
  · exact if_neg h

@[simp]
theorem memory_write : (σ.write r v).memory = σ.memory := rfl

@[simp]
theorem memory_store : (σ.store a v).memory = σ.memory.set a v := rfl

@[simp]
theorem read_store : (σ.store a v).read r = σ.read r := rfl

end State

/-- The lines that are left to execute, and the state. -/
structure Config where
  code : List Line
  state : State

/-- How a run ends: behind the last line, at a label outside of the code, in a division without a
result, in a call or in a return. -/
inductive Halt where
  | finished
  | left (label : String)
  | undefined
  | called (procedure : String)
  | returned
  deriving DecidableEq

/-- What comes after a line. -/
inductive Next where
  | goes (c : Config)
  | halts (h : Halt) (σ : State)

section

variable (div : Word → Word → Option Word) (program : List Line)

/-- Goes to a label. -/
def goto (label : String) (σ : State) : Next :=
  match codeFrom label program with
  | some code => .goes ⟨code, σ⟩
  | none => .halts (.left label) σ

/-- Executes a line, with `rest` behind it. -/
def execute (rest : List Line) (σ : State) : Inst → Next
  | .importName _ | .exportName _ | .code | .align _ | .label _ | .blank => .goes ⟨rest, σ⟩
  | .alu op target source operand =>
    match op.apply div (σ.read source) (σ.operand operand) with
    | some v => .goes ⟨rest, σ.write target v⟩
    | none => .halts .undefined σ
  | .load target base offset => .goes ⟨rest, σ.write target (σ.memory (σ.read base + offset))⟩
  | .store source base offset => .goes ⟨rest, σ.store (σ.read base + offset) (σ.read source)⟩
  | .branch cond left right target =>
    if cond.holds (σ.read left) (σ.read right) then goto program target σ else .goes ⟨rest, σ⟩
  | .jump target => goto program target σ
  | .jumpRegister _ => .halts .returned σ
  | .call procedure => .halts (.called procedure) σ

/-- One step of the machine. -/
def step : Config → Next
  | ⟨[], σ⟩ => .halts .finished σ
  | ⟨line :: rest, σ⟩ => execute div program rest σ line.inst

/-- A run of the given number of steps to its end. -/
inductive Runs : Nat → Config → Halt → State → Prop
  | halt {c : Config} {h : Halt} {σ : State} : step div program c = .halts h σ → Runs 0 c h σ
  | next {n : Nat} {c c' : Config} {h : Halt} {σ : State} :
      step div program c = .goes c' → Runs n c' h σ → Runs (n + 1) c h σ

/-- The machine gets to a configuration of `Q`, or its run ends before that as `X` says. -/
inductive Leads (Q : Config → Prop) (X : Halt → State → Prop) : Config → Prop
  | here {c : Config} : Q c → Leads Q X c
  | next {c c' : Config} : step div program c = .goes c' → Leads Q X c' → Leads Q X c
  | halt {c : Config} {h : Halt} {σ : State} :
      step div program c = .halts h σ → X h σ → Leads Q X c

end

variable {div : Word → Word → Option Word} {program : List Line} {n : Nat} {c c' : Config}
  {h h' : Halt} {σ σ' : State} {Q Q' : Config → Prop} {X X' : Halt → State → Prop}

namespace Runs

theorem tail (hr : Runs div program n c h σ) (hs : step div program c = .goes c') :
    ∃ k, n = k + 1 ∧ Runs div program k c' h σ := by
  cases hr with
  | halt hs' =>
    rw [hs] at hs'
    cases hs'
  | next hs' hr =>
    rw [hs] at hs'
    cases hs'
    exact ⟨_, rfl, hr⟩

theorem end_eq (hr : Runs div program n c h σ) (hs : step div program c = .halts h' σ') :
    h = h' ∧ σ = σ' := by
  cases hr with
  | halt hs' =>
    rw [hs] at hs'
    cases hs'
    exact ⟨rfl, rfl⟩
  | next hs' _ =>
    rw [hs] at hs'
    cases hs'

end Runs

namespace Leads

theorem bind (hl : Leads div program Q X c) (hq : ∀ c', Q c' → Leads div program Q' X' c')
    (hx : ∀ h σ, X h σ → X' h σ) : Leads div program Q' X' c := by
  induction hl with
  | here h => exact hq _ h
  | next hs _ ih => exact .next hs ih
  | halt hs h => exact .halt hs (hx _ _ h)

theorem mono (hl : Leads div program Q X c) (hq : ∀ c, Q c → Q' c) (hx : ∀ h σ, X h σ → X' h σ) :
    Leads div program Q' X' c := hl.bind (fun c h => .here (hq c h)) hx

/-- A run from a configuration that leads to others passes one of them, or ends before. -/
theorem runs (hl : Leads div program Q X c) (hr : Runs div program n c h σ) :
    (∃ k c', k ≤ n ∧ Q c' ∧ Runs div program k c' h σ) ∨ X h σ := by
  induction hl generalizing n with
  | here hq => exact .inl ⟨n, _, Nat.le_refl n, hq, hr⟩
  | next hs _ ih =>
    obtain ⟨k, rfl, hr'⟩ := hr.tail hs
    exact (ih hr').imp_left fun ⟨j, c', hj, hc'⟩ => ⟨j, c', Nat.le_succ_of_le hj, hc'⟩
  | halt hs hx =>
    obtain ⟨rfl, rfl⟩ := hr.end_eq hs
    exact .inr hx

/-- Where all configurations that are led to have runs of a kind, there is one from the first. -/
theorem exists_runs (hl : Leads div program Q X c)
    (hq : ∀ c', Q c' → ∃ n h σ, Runs div program n c' h σ ∧ X h σ) :
    ∃ n h σ, Runs div program n c h σ ∧ X h σ := by
  induction hl with
  | here h => exact hq _ h
  | next hs _ ih =>
    obtain ⟨n, h, σ, hr, hx⟩ := ih
    exact ⟨n + 1, h, σ, .next hs hr, hx⟩
  | halt hs hx => exact ⟨0, _, _, .halt hs, hx⟩

/-! ### Lines -/

variable {rest code : List Line}

theorem alu {op : AluOp} {t s : Reg} {o : Operand} {v : Word}
    (hv : op.apply div (σ.read s) (σ.operand o) = some v)
    (hl : Leads div program Q X ⟨rest, σ.write t v⟩) :
    Leads div program Q X ⟨plain (.alu op t s o) :: rest, σ⟩ :=
  .next (by rw [step, plain, execute, hv]) hl

theorem undefined {op : AluOp} {t s : Reg} {o : Operand}
    (hv : op.apply div (σ.read s) (σ.operand o) = none) (hx : X .undefined σ) :
    Leads div program Q X ⟨plain (.alu op t s o) :: rest, σ⟩ :=
  .halt (by rw [step, plain, execute, hv]) hx

theorem load {t b : Reg} {offset : Word}
    (hl : Leads div program Q X ⟨rest, σ.write t (σ.memory (σ.read b + offset))⟩) :
    Leads div program Q X ⟨plain (.load t b offset) :: rest, σ⟩ := .next rfl hl

theorem store {s b : Reg} {offset : Word}
    (hl : Leads div program Q X ⟨rest, σ.store (σ.read b + offset) (σ.read s)⟩) :
    Leads div program Q X ⟨plain (.store s b offset) :: rest, σ⟩ := .next rfl hl

theorem label {l : String} (hl : Leads div program Q X ⟨rest, σ⟩) :
    Leads div program Q X ⟨plain (.label l) :: rest, σ⟩ := .next rfl hl

theorem jump {l : String} (hc : codeFrom l program = some code)
    (hl : Leads div program Q X ⟨code, σ⟩) :
    Leads div program Q X ⟨plain (.jump l) :: rest, σ⟩ :=
  .next (by rw [step, plain, execute, goto, hc]) hl

theorem branch {cond : Cond} {a b : Reg} {l : String} (hc : codeFrom l program = some code)
    (ht : cond.holds (σ.read a) (σ.read b) = true → Leads div program Q X ⟨code, σ⟩)
    (hf : cond.holds (σ.read a) (σ.read b) = false → Leads div program Q X ⟨rest, σ⟩) :
    Leads div program Q X ⟨plain (.branch cond a b l) :: rest, σ⟩ := by
  cases hh : cond.holds (σ.read a) (σ.read b) with
  | true => exact .next (by rw [step, plain, execute, hh, if_pos rfl, goto, hc]) (ht hh)
  | false => exact .next (by rw [step, plain, execute, hh, if_neg Bool.false_ne_true]) (hf hh)

/-- A branch to a label outside of the code. -/
theorem branch_out {cond : Cond} {a b : Reg} {l : String} (hc : codeFrom l program = none)
    (ht : cond.holds (σ.read a) (σ.read b) = true → X (.left l) σ)
    (hf : cond.holds (σ.read a) (σ.read b) = false → Leads div program Q X ⟨rest, σ⟩) :
    Leads div program Q X ⟨plain (.branch cond a b l) :: rest, σ⟩ := by
  cases hh : cond.holds (σ.read a) (σ.read b) with
  | true => exact .halt (by rw [step, plain, execute, hh, if_pos rfl, goto, hc]) (ht hh)
  | false => exact .next (by rw [step, plain, execute, hh, if_neg Bool.false_ne_true]) (hf hh)

end Leads

end Machine

end Spl
