import Spl.Compile
import Spl.Frame.Diagram
import Spl.Proofs.Outcome

/-!
# Compilation phase by phase

A compilation that stops early runs the phases up to its last one. What it comes to is told in two
ways: by the phases one after another, each of which may fail, and by the functions that run several
phases at once.

* `Options.Reports o p e`: a phase that runs fails with `e`.
* `Options.Shows o p text`: all phases that run succeed, and lead to the given text.
* `Options.outcome`, `outcome_eq_error_iff`, `outcome_eq_ok_iff`: the same as a function.
* `Options.Reports.of_compile`: what the phases report if all of them are to run.
-/

namespace Spl

variable {o : Options} {p : Program} {t t' : SymbolTable}

/-! ## Several phases at once -/

theorem buildAndCheck_of_error {o : Options} {p : Program} {e : Failure SemanticError}
    (h : (enterDeclarations o.entry p).answer = .error e) :
    buildAndCheck o p = ⟨(enterDeclarations o.entry p).tree, .error e⟩ := by
  unfold buildAndCheck
  generalize enterDeclarations o.entry p = v at h
  obtain ⟨q, x⟩ := v
  cases h
  rfl

theorem buildAndCheck_of_ok {o : Options} {p : Program} {t : SymbolTable}
    (h : (enterDeclarations o.entry p).answer = .ok t) :
    buildAndCheck o p = ⟨(checkBodies t (enterDeclarations o.entry p).tree).tree.2,
      (checkBodies t (enterDeclarations o.entry p).tree).answer.map
        fun _ => (checkBodies t (enterDeclarations o.entry p).tree).tree.1⟩ := by
  unfold buildAndCheck
  generalize enterDeclarations o.entry p = v at h ⊢
  obtain ⟨q, x⟩ := v
  cases h
  rfl

/-- The first two phases fail exactly if one of them does. -/
theorem buildAndCheck_eq_error_iff {e : Failure SemanticError} :
    (buildAndCheck o p).answer = .error e ↔
      (enterDeclarations o.entry p).answer = .error e ∨
        ∃ t, (enterDeclarations o.entry p).answer = .ok t ∧
          (checkBodies t (enterDeclarations o.entry p).tree).answer = .error e := by
  cases hd : (enterDeclarations o.entry p).answer with
  | error f => simp [buildAndCheck_of_error hd]
  | ok t =>
    rw [buildAndCheck_of_ok hd]
    cases hb : (checkBodies t (enterDeclarations o.entry p).tree).answer with
    | error f => simp [hb, Except.map]
    | ok u => simp [hb, Except.map]

theorem compile_of_error {e : Failure SemanticError} (h : (buildAndCheck o p).answer = .error e) :
    (compile o p).answer = .error (.ofSemantic e) := by
  unfold compile
  dsimp only
  rw [h]
  rfl

/-- The last two phases where the allocation fails. -/
theorem allocateAndGenerate_of_error {f : Fault} (h : allocate o.leaves p t = .error f t') :
    (allocateAndGenerate o p).run t = .error (.fault f) t' := by
  show EStateM.bind ((allocate o.leaves p).adaptExcept Failure.fault) _ t = _
  unfold EStateM.bind EStateM.adaptExcept
  rw [h]

/-- The last two phases where the allocation succeeds. -/
theorem allocateAndGenerate_of_allocated (h : allocate o.leaves p t = .ok () t') :
    (allocateAndGenerate o p).run t =
      match generate t' p with
      | .ok lines => .ok lines t'
      | .error e => .error e t' := by
  show EStateM.bind ((allocate o.leaves p).adaptExcept Failure.fault) _ t = _
  unfold EStateM.bind EStateM.adaptExcept
  rw [h]
  show EStateM.run (get >>= _) t' = _
  rw [EStateM.run_bind, EStateM.run_get]
  dsimp only
  cases generate t' p <;> rfl

theorem compile_of_unallocated {f : Fault} (ht : (buildAndCheck o p).answer = .ok t)
    (h : allocate o.leaves (buildAndCheck o p).tree t = .error f t') :
    (compile o p).answer = .error (.fault f) := by
  unfold compile
  dsimp only
  rw [ht]
  simp only [Except.mapError, bind, Except.bind, allocateAndGenerate_of_error h]
  rfl

theorem compile_of_allocated (ht : (buildAndCheck o p).answer = .ok t)
    (h : allocate o.leaves (buildAndCheck o p).tree t = .ok () t') :
    (compile o p).answer = (generate t' (buildAndCheck o p).tree).mapError .ofCodegen := by
  unfold compile
  dsimp only
  rw [ht]
  simp only [Except.mapError, bind, Except.bind, allocateAndGenerate_of_allocated h]
  cases generate t' (buildAndCheck o p).tree <;> rfl

/-! ## The phases up to the last one -/

/-- The first three phases succeed, and `t` is the table that they leave. -/
def Options.Allocates (o : Options) (p : Program) (t : SymbolTable) : Prop :=
  ∃ t₀, (buildAndCheck o p).answer = .ok t₀ ∧
    (allocate o.leaves (buildAndCheck o p).tree).run t₀ = .ok () t

/-- A phase that is to run fails, after the phases before it have succeeded. After the third phase
there may be a fault in drawing the frames, if they are to be shown. -/
inductive Options.Reports (o : Options) (p : Program) : CompileFailure → Prop
  | declarations {e : Failure SemanticError} (h : (enterDeclarations o.entry p).answer = .error e) :
      Reports o p (.ofSemantic e)
  | bodies {t : SymbolTable} {e : Failure SemanticError} (hruns : o.runs .bodies = true)
      (ht : (enterDeclarations o.entry p).answer = .ok t)
      (h : (checkBodies t (enterDeclarations o.entry p).tree).answer = .error e) :
      Reports o p (.ofSemantic e)
  | frames {t t' : SymbolTable} {f : Fault} (hruns : o.runs .frames = true)
      (ht : (buildAndCheck o p).answer = .ok t)
      (h : (allocate o.leaves (buildAndCheck o p).tree).run t = .error f t') :
      Reports o p (.fault f)
  | diagrams {t : SymbolTable} {f : Fault} (hlast : o.lastPhase = .frames) (ht : o.Allocates p t)
      (h : frameDump t (buildAndCheck o p).tree = .error f) :
      Reports o p (.fault f)
  | code {t : SymbolTable} {e : Failure CodegenError} (hruns : o.runs .code = true)
      (ht : o.Allocates p t) (h : generate t (buildAndCheck o p).tree = .error e) :
      Reports o p (.ofCodegen e)

/-- All phases that are to run succeed, and this is the text for the last one: the table, nothing,
the frames or the assembly. -/
inductive Options.Shows (o : Options) (p : Program) : String → Prop
  | declarations {t : SymbolTable} (hlast : o.lastPhase = .declarations)
      (h : (enterDeclarations o.entry p).answer = .ok t) :
      Shows o p (t.dump (enterDeclarations o.entry p).tree)
  | bodies {t : SymbolTable} (hlast : o.lastPhase = .bodies)
      (h : (buildAndCheck o p).answer = .ok t) :
      Shows o p ""
  | frames {t : SymbolTable} {text : String} (hlast : o.lastPhase = .frames) (ht : o.Allocates p t)
      (h : frameDump t (buildAndCheck o p).tree = .ok text) :
      Shows o p text
  | code {lines : List Line} (hlast : o.lastPhase = .code) (h : (compile o p).answer = .ok lines) :
      Shows o p (assemblyText lines)

/-- The phases up to the last one, as a function: the first failure, or the text to show. -/
def Options.outcome (o : Options) (p : Program) : Except CompileFailure String :=
  match o.lastPhase with
  | .declarations =>
    ((enterDeclarations o.entry p).answer.mapError .ofSemantic).map
      (·.dump (enterDeclarations o.entry p).tree)
  | .bodies => ((buildAndCheck o p).answer.mapError .ofSemantic).map fun _ => ""
  | .frames =>
    match (buildAndCheck o p).answer with
    | .error e => .error (.ofSemantic e)
    | .ok t =>
      match allocate o.leaves (buildAndCheck o p).tree t with
      | .error f _ => .error (.fault f)
      | .ok () t => (frameDump t (buildAndCheck o p).tree).mapError .fault
  | .code => (compile o p).answer.map assemblyText

theorem Options.bodies_run_iff : o.runs .bodies = true ↔ o.lastPhase ≠ .declarations := by
  unfold runs
  cases o.lastPhase <;> decide

theorem Options.frames_run_iff :
    o.runs .frames = true ↔ o.lastPhase = .frames ∨ o.lastPhase = .code := by
  unfold runs
  cases o.lastPhase <;> decide

theorem Options.code_runs_iff : o.runs .code = true ↔ o.lastPhase = .code := by
  unfold runs
  cases o.lastPhase <;> decide

theorem Options.lastPhase_eq_bodies (hbodies : o.runs .bodies = true)
    (hframes : ¬ o.runs .frames = true) : o.lastPhase = .bodies := by
  rw [bodies_run_iff] at hbodies
  rw [frames_run_iff, not_or] at hframes
  cases hlast : o.lastPhase with
  | declarations => exact absurd hlast hbodies
  | bodies => rfl
  | frames => exact absurd hlast hframes.1
  | code => exact absurd hlast hframes.2

theorem Options.outcome_of_error {e : Failure SemanticError} (hruns : o.runs .bodies = true)
    (h : (buildAndCheck o p).answer = .error e) : o.outcome p = .error (.ofSemantic e) := by
  rw [bodies_run_iff] at hruns
  unfold outcome
  cases hlast : o.lastPhase with
  | declarations => exact absurd hlast hruns
  | bodies | frames => simp only [h, Except.mapError, Except.map]
  | code => simp only [compile_of_error h, Except.map]

theorem Options.Reports.outcome_eq {e : CompileFailure} (h : o.Reports p e) :
    o.outcome p = .error e := by
  cases h with
  | declarations h =>
    by_cases hruns : o.runs .bodies = true
    · exact Options.outcome_of_error hruns (buildAndCheck_eq_error_iff.2 (.inl h))
    · rw [Options.bodies_run_iff, not_not] at hruns
      simp only [Options.outcome, hruns, h, Except.mapError, Except.map]
  | bodies hruns ht h =>
    exact Options.outcome_of_error hruns (buildAndCheck_eq_error_iff.2 (.inr ⟨_, ht, h⟩))
  | frames hruns ht h =>
    have ha : allocate o.leaves (buildAndCheck o p).tree _ = _ := h
    rcases Options.frames_run_iff.1 hruns with hlast | hlast
    · simp only [Options.outcome, hlast, ht, ha]
    · simp only [Options.outcome, hlast, compile_of_unallocated ht ha, Except.map]
  | diagrams hlast ht h =>
    obtain ⟨t₀, ht, ha⟩ := ht
    rw [EStateM.run] at ha
    simp only [Options.outcome, hlast, ht, ha, h, Except.mapError]
  | code hruns ht h =>
    obtain ⟨t₀, ht, ha⟩ := ht
    simp only [Options.outcome, Options.code_runs_iff.1 hruns, compile_of_allocated ht ha, h,
      Except.mapError, Except.map]

theorem Options.Shows.outcome_eq {text : String} (h : o.Shows p text) :
    o.outcome p = .ok text := by
  cases h with
  | declarations hlast h | bodies hlast h =>
    simp only [Options.outcome, hlast, h, Except.mapError, Except.map]
  | frames hlast ht h =>
    obtain ⟨t₀, ht, ha⟩ := ht
    rw [EStateM.run] at ha
    simp only [Options.outcome, hlast, ht, ha, h, Except.mapError]
  | code hlast h => simp only [Options.outcome, hlast, h, Except.map]

theorem Options.Reports.of_error {e : Failure SemanticError} (hruns : o.runs .bodies = true)
    (h : (buildAndCheck o p).answer = .error e) : o.Reports p (.ofSemantic e) := by
  rcases buildAndCheck_eq_error_iff.1 h with h | ⟨t, ht, h⟩
  · exact .declarations h
  · exact .bodies hruns ht h

/-- Where all phases are to run, they report what a compilation fails with. -/
theorem Options.Reports.of_compile {e : CompileFailure} (hlast : o.lastPhase = .code)
    (h : (compile o p).answer = .error e) : o.Reports p e := by
  cases hb : (buildAndCheck o p).answer with
  | error f =>
    rw [compile_of_error hb] at h
    cases h
    exact .of_error (Options.bodies_run_iff.2 (by rw [hlast]; decide)) hb
  | ok t =>
    cases ha : allocate o.leaves (buildAndCheck o p).tree t with
    | error f t' =>
      rw [compile_of_unallocated hb ha] at h
      cases h
      exact .frames (Options.frames_run_iff.2 (.inr hlast)) hb ha
    | ok _ t' =>
      rw [compile_of_allocated hb ha] at h
      cases hg : generate t' (buildAndCheck o p).tree with
      | ok lines =>
        rw [hg] at h
        cases h
      | error f =>
        rw [hg] at h
        cases h
        exact .code (Options.code_runs_iff.2 hlast) ⟨t, hb, ha⟩ hg

theorem Options.Reports.decides {e : CompileFailure} (h : o.Reports p e) :
    Decides (o.Shows p) (o.Reports p) (o.outcome p) := by
  rw [h.outcome_eq]
  exact h

theorem Options.Shows.decides {text : String} (h : o.Shows p text) :
    Decides (o.Shows p) (o.Reports p) (o.outcome p) := by
  rw [h.outcome_eq]
  exact h

/-- The phases up to the last one lead to a text or report a failure. -/
theorem Options.outcome_decides (o : Options) (p : Program) :
    Decides (o.Shows p) (o.Reports p) (o.outcome p) := by
  cases hlast : o.lastPhase with
  | declarations =>
    cases h : (enterDeclarations o.entry p).answer with
    | error e => exact (Options.Reports.declarations h).decides
    | ok t => exact (Options.Shows.declarations hlast h).decides
  | bodies =>
    have hruns : o.runs .bodies = true := Options.bodies_run_iff.2 (by rw [hlast]; decide)
    cases h : (buildAndCheck o p).answer with
    | error e => exact (Options.Reports.of_error hruns h).decides
    | ok t => exact (Options.Shows.bodies hlast h).decides
  | frames =>
    have hruns : o.runs .bodies = true := Options.bodies_run_iff.2 (by rw [hlast]; decide)
    cases hb : (buildAndCheck o p).answer with
    | error e => exact (Options.Reports.of_error hruns hb).decides
    | ok t =>
      cases ha : allocate o.leaves (buildAndCheck o p).tree t with
      | error f t' =>
        exact (Options.Reports.frames (Options.frames_run_iff.2 (.inl hlast)) hb ha).decides
      | ok _ t' =>
        cases hd : frameDump t' (buildAndCheck o p).tree with
        | error f => exact (Options.Reports.diagrams hlast ⟨t, hb, ha⟩ hd).decides
        | ok text => exact (Options.Shows.frames hlast ⟨t, hb, ha⟩ hd).decides
  | code =>
    cases h : (compile o p).answer with
    | error e => exact (Options.Reports.of_compile hlast h).decides
    | ok lines => exact (Options.Shows.code hlast h).decides

theorem Options.outcome_eq_error_iff {e : CompileFailure} :
    o.outcome p = .error e ↔ o.Reports p e := by
  constructor
  · intro h
    have hd := o.outcome_decides p
    rwa [h] at hd
  · exact Reports.outcome_eq

theorem Options.outcome_eq_ok_iff {text : String} : o.outcome p = .ok text ↔ o.Shows p text := by
  constructor
  · intro h
    have hd := o.outcome_decides p
    rwa [h] at hd
  · exact Shows.outcome_eq

end Spl
