import Mathlib
import Spl.Proofs.Compile.Passes
import Spl.Proofs.Tool.Input
import Spl.Tool

/-!
# Runs of the tool

The tool takes a program through the phases by itself and stops between them. It does what the
library does with the same options, says nothing before it has succeeded, and changes no file but
the one that it is told to write. This holds in every environment, whatever its arguments look like
and however texts are decoded, as long as reading and printing leave the files alone.

* `Options.result_eq`: a run from its first phase on, by what the phases come to.
* `Environment.Lawful`: what is asked of an environment.
* `Environment.Ends`, `carryOut_ends`: the ways in which a run ends.
* `Environment.Agrees`, `run_agrees`: what the tool does, told by what the library does.
-/

namespace Spl

/-! ## From the first phase on -/

/-- The exit code after a failure. -/
def CompileFailure.exit : CompileFailure → UInt32
  | .semantic _ => 2
  | .codegen _ => 3
  | .fault _ => 101

theorem Report.semantic_eq (e : Failure SemanticError) :
    Report.semantic e =
      .failure (CompileFailure.ofSemantic e).exit (CompileFailure.ofSemantic e).message := by
  cases e <;> rfl

theorem Report.codegen_eq (e : Failure CodegenError) :
    Report.codegen e =
      .failure (CompileFailure.ofCodegen e).exit (CompileFailure.ofCodegen e).message := by
  cases e <;> rfl

theorem Report.ofWriting_exit_eq_zero_iff {text : String} {r : Except OutputError Unit} :
    (Report.ofWriting text r).exit = 0 ↔ r = .ok () := by
  cases r <;> simp [ofWriting, failure]

/-- What a run comes to, if `last` is the last phase and `x` is what the phases come to. -/
def Result.ofOutcome (last : Phase) : Except CompileFailure String → Result
  | .error e => .report (.failure e.exit e.message)
  | .ok text =>
    match last with
    | .declarations | .frames => .dump text
    | .bodies => .report {}
    | .code => .assembly text

namespace Options

variable {o : Options} {p : Program} {t : SymbolTable}

theorem codeResult_eq (hruns : o.runs .code = true) (ht : o.Allocates p t) :
    codeResult t (buildAndCheck o p).tree = .ofOutcome o.lastPhase (o.outcome p) := by
  have hlast := code_runs_iff.1 hruns
  unfold codeResult
  cases hg : generate t (buildAndCheck o p).tree with
  | error e =>
    dsimp only
    rw [(Reports.code hruns ht hg).outcome_eq, Report.codegen_eq]
    rfl
  | ok lines =>
    obtain ⟨t₀, ht, ha⟩ := ht
    have hc : (compile o p).answer = .ok lines := by
      rw [compile_of_allocated ht ha, hg]
      rfl
    dsimp only
    rw [(Shows.code hlast hc).outcome_eq, hlast]
    rfl

theorem framesResult_eq (hruns : o.runs .frames = true)
    (ht : (buildAndCheck o p).answer = .ok t) :
    o.framesResult t (buildAndCheck o p).tree = .ofOutcome o.lastPhase (o.outcome p) := by
  unfold framesResult
  cases ha : (allocate o.leaves (buildAndCheck o p).tree).run t with
  | error f t' =>
    dsimp only
    rw [(Reports.frames hruns ht ha).outcome_eq]
    rfl
  | ok _ t' =>
    dsimp only
    by_cases hcode : o.runs .code = true
    · rw [if_pos hcode]
      exact codeResult_eq hcode ⟨t, ht, ha⟩
    rw [if_neg hcode]
    rw [code_runs_iff] at hcode
    have hlast := (frames_run_iff.1 hruns).resolve_right hcode
    cases hd : frameDump t' (buildAndCheck o p).tree with
    | error f =>
      dsimp only
      rw [(Reports.diagrams hlast ⟨t, ht, ha⟩ hd).outcome_eq]
      rfl
    | ok text =>
      dsimp only
      rw [(Shows.frames hlast ⟨t, ht, ha⟩ hd).outcome_eq, hlast]
      rfl

theorem bodiesResult_eq (hruns : o.runs .bodies = true)
    (ht : (enterDeclarations o.entry p).answer = .ok t) :
    o.bodiesResult t (enterDeclarations o.entry p).tree =
      .ofOutcome o.lastPhase (o.outcome p) := by
  unfold bodiesResult
  dsimp only
  cases hb : (checkBodies t (enterDeclarations o.entry p).tree).answer with
  | error e =>
    dsimp only
    rw [(Reports.bodies hruns ht hb).outcome_eq, Report.semantic_eq]
    rfl
  | ok u =>
    have hbuild : (buildAndCheck o p).answer =
        .ok (checkBodies t (enterDeclarations o.entry p).tree).tree.1 := by
      rw [buildAndCheck_of_ok ht, hb]
      rfl
    dsimp only
    by_cases hframes : o.runs .frames = true
    · rw [if_pos hframes, ← framesResult_eq hframes hbuild, buildAndCheck_of_ok ht]
    · have hlast := lastPhase_eq_bodies hruns hframes
      rw [if_neg hframes, (Shows.bodies hlast hbuild).outcome_eq, hlast]
      rfl

/-- A run from its first phase on does what the phases come to. -/
theorem result_eq (o : Options) (p : Program) :
    o.result p = .ofOutcome o.lastPhase (o.outcome p) := by
  unfold result
  dsimp only
  cases hd : (enterDeclarations o.entry p).answer with
  | error e =>
    dsimp only
    rw [(Reports.declarations hd).outcome_eq, Report.semantic_eq]
    rfl
  | ok t =>
    dsimp only
    by_cases hbodies : o.runs .bodies = true
    · rw [if_pos hbodies]
      exact bodiesResult_eq hbodies hd
    · rw [if_neg hbodies]
      rw [bodies_run_iff, not_not] at hbodies
      rw [(Shows.declarations hbodies hd).outcome_eq, hbodies]
      rfl

theorem compile_of_outcome_error {e : CompileFailure} (hlast : o.lastPhase = .code)
    (h : o.outcome p = .error e) : (compile o p).answer = .error e := by
  cases hc : (compile o p).answer with
  | error e' =>
    rw [(Reports.of_compile hlast hc).outcome_eq] at h
    cases h
    rfl
  | ok lines =>
    rw [(Shows.code hlast hc).outcome_eq] at h
    cases h

theorem compile_of_outcome_ok {text : String} (hlast : o.lastPhase = .code)
    (h : o.outcome p = .ok text) :
    ∃ lines, (compile o p).answer = .ok lines ∧ assemblyText lines = text := by
  cases hc : (compile o p).answer with
  | error e =>
    rw [(Reports.of_compile hlast hc).outcome_eq] at h
    cases h
  | ok lines =>
    rw [(Shows.code hlast hc).outcome_eq] at h
    exact ⟨lines, rfl, Except.ok.inj h⟩

theorem Shows.eq_empty {text : String} (h : o.Shows p text) (hlast : o.lastPhase = .bodies) :
    text = "" := by
  cases h with
  | bodies => rfl
  | declarations h | frames h | code h => cases hlast.symm.trans h

end Options

/-! ## Environments -/

namespace Environment

variable {σ η : Type} {E : Environment (StateM σ) η} {i : Invocation} {s : σ} {x : Report × σ}

/-- What is asked of an environment, in which `σ` is what all files hold: a command line that is
accepted gives an input, and neither reading a file nor printing changes a file. -/
structure Lawful (E : Environment (StateM σ) η) : Prop where
  input_given : ∀ arguments g, E.parse arguments = .ok g → (g.value? .input).isSome = true
  read_keeps : ∀ path s, ((E.read path).run s).2 = s
  print_keeps : ∀ text s, ((E.print text).run s).2 = s

/-- The file at a path holds the tree of a program, in the format that the path asks for. -/
def Holds (E : Environment (StateM σ) η) (s : σ) (path : String) (p : Program) : Prop :=
  ∃ format text, format.Suits path ∧ ((E.read path).run s).1 = .ok text ∧
    E.decode format text = .ok p

/-- The file at a path cannot be read, or its text cannot be decoded. -/
def HoldsNone (E : Environment (StateM σ) η) (s : σ) (path : String) : Prop :=
  (∃ e, ((E.read path).run s).1 = .error e) ∨
    ∃ format text reason, format.Suits path ∧ ((E.read path).run s).1 = .ok text ∧
      E.decode format text = .error reason

/-- The tree in the file at a path. -/
def tree (E : Environment (StateM σ) η) (s : σ) (path : String) : Except InputError Program :=
  readTree E.decode path ((E.read path).run s).1

theorem tree_eq_ok_iff {path : String} {p : Program} :
    E.tree s path = .ok p ↔ E.Holds s path p := by
  unfold tree readTree Holds
  simp only [Format.suits_iff, exists_and_left, exists_eq_left]
  cases ((E.read path).run s).1 with
  | error e => simp
  | ok text =>
    dsimp only
    cases hd : E.decode (.ofPath path) text <;> simp [hd]

theorem exists_tree_eq_error_iff {path : String} :
    (∃ e, E.tree s path = .error e) ↔ E.HoldsNone s path := by
  unfold tree readTree HoldsNone
  simp only [Format.suits_iff, exists_and_left, exists_eq_left]
  cases ((E.read path).run s).1 with
  | error e => simp
  | ok text =>
    dsimp only
    cases hd : E.decode (.ofPath path) text <;> simp [hd]

/-- How a run ends that does what it is asked to do: without a tree, with a failure of a phase,
after the bodies have been checked, with a text for standard output, or with the assembly. -/
inductive Ends (E : Environment (StateM σ) η) (i : Invocation) (s : σ) : Report × σ → Prop
  | noTree {e : InputError} (ht : E.tree s i.input = .error e) : Ends E i s (.failure 1 e.text, s)
  | fails {p : Program} {e : CompileFailure} (ht : E.tree s i.input = .ok p)
      (ho : i.options.outcome p = .error e) : Ends E i s (.failure e.exit e.message, s)
  | checks {p : Program} {text : String} (ht : E.tree s i.input = .ok p)
      (hlast : i.options.lastPhase = .bodies) (ho : i.options.outcome p = .ok text) :
      Ends E i s ({}, s)
  | dumps {p : Program} {text : String} {r : Except OutputError Unit}
      (ht : E.tree s i.input = .ok p)
      (hlast : i.options.lastPhase = .declarations ∨ i.options.lastPhase = .frames)
      (ho : i.options.outcome p = .ok text) (hr : ((E.print text).run s).1 = r) :
      Ends E i s (.ofPrinting text r, s)
  | writes {p : Program} {lines : List Line} {r : Except OutputError Unit} {s' : σ}
      (ht : E.tree s i.input = .ok p) (hlast : i.options.lastPhase = .code)
      (hc : (compile i.options p).answer = .ok lines)
      (hr : (E.writeOutput i.output (assemblyText lines)).run s = (r, s')) :
      Ends E i s (.ofWriting (if i.output.isNone then assemblyText lines else "") r, s')

theorem carryOut_run (hE : E.Lawful) (i : Invocation) (s : σ) :
    (E.carryOut i).run s =
      match E.tree s i.input with
      | .error e => (.failure 1 e.text, s)
      | .ok p => (E.finish i.output (i.options.result p)).run s := by
  have hs : (E.read i.input).run s = (((E.read i.input).run s).1, s) :=
    Prod.ext rfl (hE.read_keeps i.input s)
  unfold carryOut tree
  rw [StateT.run_bind, hs]
  show (match readTree E.decode i.input ((E.read i.input).run s).1 with
    | .error e => pure (Report.failure 1 e.text)
    | .ok p => E.finish i.output (i.options.result p)).run s = _
  cases readTree E.decode i.input ((E.read i.input).run s).1 <;> rfl

theorem finish_ends (hE : E.Lawful) {p : Program} (ht : E.tree s i.input = .ok p) :
    E.Ends i s ((E.finish i.output (i.options.result p)).run s) := by
  rw [Options.result_eq]
  cases ho : i.options.outcome p with
  | error e => exact .fails ht ho
  | ok text =>
    have hdump (hlast : i.options.lastPhase = .declarations ∨ i.options.lastPhase = .frames) :
        E.Ends i s ((E.finish i.output (.dump text)).run s) := by
      have hs : (E.finish i.output (.dump text)).run s =
          (.ofPrinting text ((E.print text).run s).1, s) :=
        Prod.ext rfl (hE.print_keeps text s)
      rw [hs]
      exact .dumps ht hlast ho rfl
    cases hlast : i.options.lastPhase with
    | declarations => exact hdump (.inl hlast)
    | bodies => exact .checks ht hlast ho
    | frames => exact hdump (.inr hlast)
    | code =>
      obtain ⟨lines, hc, rfl⟩ := Options.compile_of_outcome_ok hlast ho
      exact .writes ht hlast hc rfl

/-- The ways in which a run ends. -/
theorem carryOut_ends (hE : E.Lawful) (i : Invocation) (s : σ) :
    E.Ends i s ((E.carryOut i).run s) := by
  rw [carryOut_run hE]
  cases ht : E.tree s i.input with
  | error e => exact .noTree ht
  | ok p => exact finish_ends hE ht

/-! ## Agreement -/

/-- What a run does that is asked to do `i`, told by what the library does with the same options: `s`
is what the files hold before, and `x` is how the run ends, with what they hold afterwards. -/
structure Agrees (E : Environment (StateM σ) η) (i : Invocation) (s : σ) (x : Report × σ) :
    Prop where
  codes : x.1.exit ∈ [0, 1, 2, 3, 4, 101]
  /-- The exit code is 1 exactly if the input cannot be read or decoded. -/
  noTree : x.1.exit = 1 ↔ E.HoldsNone s i.input
  /-- It is 2 exactly if one of the first two phases, as far as they are to run, reports an
  error. -/
  semantic : x.1.exit = 2 ↔ ∃ p e, E.Holds s i.input p ∧ i.options.Reports p (.semantic e)
  /-- It is 3 exactly if code is to be generated, and the generation reports an error. -/
  codegen : x.1.exit = 3 ↔ ∃ p e, E.Holds s i.input p ∧ i.options.Reports p (.codegen e)
  /-- It is 101 exactly if a phase that is to run ends in a fault, or if the table or the frames
  cannot be printed. -/
  fault : x.1.exit = 101 ↔ ∃ p, E.Holds s i.input p ∧ ((∃ f, i.options.Reports p (.fault f)) ∨
    (i.options.lastPhase = .declarations ∨ i.options.lastPhase = .frames) ∧
      ∃ text e, i.options.Shows p text ∧ ((E.print text).run s).1 = .error e)
  /-- It is 4 exactly if the program is compiled, and its assembly cannot be written. -/
  unwritten : x.1.exit = 4 ↔ i.options.lastPhase = .code ∧ ∃ p lines e, E.Holds s i.input p ∧
    (compile i.options p).answer = .ok lines ∧
      ((E.writeOutput i.output (assemblyText lines)).run s).1 = .error e
  /-- A run that finds no tree, or in which a phase fails, prints nothing and changes no file. -/
  silent : x.1.exit = 1 ∨ x.1.exit = 2 ∨ x.1.exit = 3 ∨
    (∃ p f, E.Holds s i.input p ∧ i.options.Reports p (.fault f)) → x.1.output = "" ∧ x.2 = s
  /-- Before the last of all phases, a success prints what the last phase to run has made, and no
  run changes a file. -/
  stopped : i.options.lastPhase ≠ .code → x.2 = s ∧ ∀ text,
    x.1.exit = 0 ∧ x.1.output = text ↔ ∃ p, E.Holds s i.input p ∧ i.options.Shows p text ∧
      (i.options.lastPhase = .bodies ∨ ((E.print text).run s).1 = .ok ())
  /-- A program is compiled to standard output exactly if the library compiles it and standard
  output takes its assembly. -/
  printed : i.options.lastPhase = .code → i.output = none → x.2 = s ∧ ∀ text,
    x.1.exit = 0 ∧ x.1.output = text ↔ ∃ p lines, E.Holds s i.input p ∧
      (compile i.options p).answer = .ok lines ∧ assemblyText lines = text ∧
        ((E.print text).run s).1 = .ok ()
  /-- A program is compiled to a file exactly if the library compiles it, the file can be created,
  and it takes the assembly. Nothing else happens to the files, and nothing is printed. -/
  written : i.options.lastPhase = .code → ∀ path, i.output = some path → x.1.output = "" ∧ ∀ s',
    x.1.exit = 0 ∧ x.2 = s' ↔ ∃ p lines file s₁, E.Holds s i.input p ∧
      (compile i.options p).answer = .ok lines ∧ (E.create path).run s = (.ok file, s₁) ∧
        (E.write file (assemblyText lines)).run s₁ = (.ok (), s')
  /-- Where files that are open take what is written to them, it is enough that the file can be
  created. -/
  created : i.options.lastPhase = .code → ∀ path, i.output = some path →
    (∀ file text s₁, ((E.write file text).run s₁).1 = .ok ()) →
      (x.1.exit = 0 ↔ ∃ p lines file, E.Holds s i.input p ∧
        (compile i.options p).answer = .ok lines ∧ ((E.create path).run s).1 = .ok file)

/-- What writing the assembly to a file comes to. -/
theorem writeOutput_some_run (E : Environment (StateM σ) η) (path text : String) (s : σ) :
    (E.writeOutput (some path) text).run s =
      match (E.create path).run s with
      | (.error e, s₁) => (.error { error := e }, s₁)
      | (.ok file, s₁) =>
        (((E.write file text).run s₁).1.mapError fun e => { error := e },
          ((E.write file text).run s₁).2) := by
  unfold writeOutput
  rw [StateT.run_bind]
  rcases (E.create path).run s with ⟨e | file, s₁⟩ <;> rfl

/-- The assembly is written to a file if the file can be created and takes it. -/
theorem writeOutput_some_run_eq_ok_iff {path text : String} {s' : σ} :
    (E.writeOutput (some path) text).run s = (.ok (), s') ↔
      ∃ file s₁, (E.create path).run s = (.ok file, s₁) ∧
        (E.write file text).run s₁ = (.ok (), s') := by
  rw [writeOutput_some_run]
  rcases (E.create path).run s with ⟨e | file, s₁⟩
  · exact ⟨nofun, nofun⟩
  dsimp only
  refine ⟨fun h => ⟨file, s₁, rfl, ?_⟩, fun ⟨_, _, h, hw⟩ => ?_⟩
  · obtain ⟨hdone, hstate⟩ := Prod.mk_inj.1 h
    exact Prod.ext (mapError_eq_ok_iff.1 hdone) hstate
  · cases h
    exact Prod.mk_inj.2 ⟨mapError_eq_ok_iff.2 (congrArg Prod.fst hw), congrArg Prod.snd hw⟩

/-- Nothing is printed where the assembly is written to a file. -/
theorem printed_of_writeOutput {path text : String} {e : OutputError} {s' : σ}
    (h : (E.writeOutput (some path) text).run s = (.error e, s')) : e.printed = "" := by
  rw [writeOutput_some_run] at h
  rcases hc : (E.create path).run s with ⟨e' | file, s₁⟩
  · rw [hc] at h
    cases h
    rfl
  rw [hc] at h
  have hw := (Prod.mk_inj.1 h).1
  cases hr : ((E.write file text).run s₁).1 with
  | error e' =>
    rw [hr] at hw
    cases hw
    rfl
  | ok u =>
    rw [hr] at hw
    cases hw

/-- Where files that are open take every text, only their creation can fail. -/
theorem writeOutput_some_run_fst_eq_ok_iff {path text : String}
    (hwrite : ∀ file s₁, ((E.write file text).run s₁).1 = .ok ()) :
    ((E.writeOutput (some path) text).run s).1 = .ok () ↔
      ∃ file, ((E.create path).run s).1 = .ok file := by
  constructor
  · intro h
    obtain ⟨file, s₁, hc, -⟩ := writeOutput_some_run_eq_ok_iff.1 (Prod.ext h rfl)
    exact ⟨file, congrArg Prod.fst hc⟩
  · rintro ⟨file, hc⟩
    have h := writeOutput_some_run_eq_ok_iff.2
      ⟨file, _, Prod.ext hc rfl, Prod.ext (hwrite file _) rfl⟩
    exact congrArg Prod.fst h

theorem Ends.agrees (hE : E.Lawful) (h : E.Ends i s x) : E.Agrees i s x := by
  cases h with
  | noTree ht =>
    constructor <;> simp only [← tree_eq_ok_iff, ← exists_tree_eq_error_iff] <;>
      simp [ht, Report.failure]
  | @fails p e ht ho =>
    constructor
    case unwritten =>
      refine ⟨fun h => ?_, fun ⟨hlast, p', lines, _, hp, hc, _⟩ => ?_⟩
      · cases e <;> cases h
      · cases ht.symm.trans (tree_eq_ok_iff.2 hp)
        cases (Options.compile_of_outcome_error hlast ho).symm.trans hc
    case printed | written | created =>
      intro hlast
      have hc := Options.compile_of_outcome_error hlast ho
      simp only [← tree_eq_ok_iff]
      cases e <;> simp [ht, hc, Report.failure, CompileFailure.exit]
    all_goals
      simp only [← tree_eq_ok_iff, ← exists_tree_eq_error_iff, ← Options.outcome_eq_error_iff,
        ← Options.outcome_eq_ok_iff]
      cases e <;> simp [ht, ho, Report.failure, CompileFailure.exit]
  | @checks p text ht hlast ho =>
    have htext : text = "" := (Options.outcome_eq_ok_iff.1 ho).eq_empty hlast
    constructor <;>
      simp only [← tree_eq_ok_iff, ← exists_tree_eq_error_iff, ← Options.outcome_eq_error_iff,
        ← Options.outcome_eq_ok_iff] <;>
      simp [ht, ho, hlast, htext]
  | @dumps p text r ht hlast ho hr =>
    have hcode : i.options.lastPhase ≠ .code := by rcases hlast with h | h <;> simp [h]
    have hbodies : i.options.lastPhase ≠ .bodies := by rcases hlast with h | h <;> simp [h]
    constructor <;>
      simp only [← tree_eq_ok_iff, ← exists_tree_eq_error_iff, ← Options.outcome_eq_error_iff,
        ← Options.outcome_eq_ok_iff] <;>
      cases r <;> simp [ht, ho, hr, hlast, hcode, hbodies, Report.ofPrinting, Report.failure]
  | @writes p lines r s' ht hlast hc hr =>
    have ho : i.options.outcome p = .ok (assemblyText lines) :=
      Options.outcome_eq_ok_iff.2 (.code hlast hc)
    constructor
    case printed =>
      intro _ hnone
      rw [hnone] at hr
      have hp : ((E.print (assemblyText lines)).run s).1 = r := congrArg Prod.fst hr
      have hs : s' = s := (congrArg Prod.snd hr).symm.trans (hE.print_keeps _ s)
      simp only [← tree_eq_ok_iff, hnone, hs]
      cases r <;> simp [ht, hc, hp, Report.ofWriting, Report.failure]
    case written =>
      intro _ path hpath
      rw [hpath] at hr
      simp only [← tree_eq_ok_iff, hpath]
      have hprinted : (Report.ofWriting "" r).output = "" := by
        cases r with
        | ok _ => rfl
        | error e => exact printed_of_writeOutput hr
      refine ⟨hprinted, fun s₂ => ?_⟩
      have hdone : (Report.ofWriting "" r).exit = 0 ∧ s' = s₂ ↔
          (E.writeOutput (some path) (assemblyText lines)).run s = (.ok (), s₂) := by
        rw [hr, Report.ofWriting_exit_eq_zero_iff]
        exact Prod.mk_inj.symm
      have hwritten := hdone.trans writeOutput_some_run_eq_ok_iff
      simpa [ht, hc] using hwritten
    case created =>
      intro _ path hpath hwrite
      rw [hpath] at hr
      simp only [← tree_eq_ok_iff, hpath]
      have hdone : (Report.ofWriting "" r).exit = 0 ↔
          ((E.writeOutput (some path) (assemblyText lines)).run s).1 = .ok () := by
        rw [hr]
        exact Report.ofWriting_exit_eq_zero_iff
      have hcreated := hdone.trans (writeOutput_some_run_fst_eq_ok_iff fun file => hwrite file _)
      simpa [ht, hc] using hcreated
    all_goals
      simp only [← tree_eq_ok_iff, ← exists_tree_eq_error_iff, ← Options.outcome_eq_error_iff,
        ← Options.outcome_eq_ok_iff]
      cases r <;> simp [ht, ho, hc, hr, hlast, Report.ofWriting, Report.failure]

/-- Without a level to log at, a run does what its arguments ask for. -/
theorem run_run {arguments : List String} {g : CommandLine.Matches}
    (hparse : E.parse arguments = .ok g) (hlog : g.value? .logLevel = none)
    (hi : g.invocation? = some i) : (E.run arguments).run s = (E.carryOut i).run s := by
  have hlevel : g.logLevel? = none := by
    unfold CommandLine.Matches.logLevel?
    rw [hlog]
    rfl
  unfold run
  rw [hparse]
  dsimp only
  rw [hlevel, hi]
  rfl

end Environment

/-- Runs of the tool in any environment, on any arguments that it accepts and that do not ask for a
log: the arguments say what to do, and the tool does what the library does with the same options. -/
theorem run_agrees {σ η : Type} {E : Environment (StateM σ) η} (hE : E.Lawful)
    {arguments : List String} {g : CommandLine.Matches} (hparse : E.parse arguments = .ok g)
    (hlog : g.value? .logLevel = none) (s : σ) :
    ∃ i, g.invocation? = some i ∧ i.options = g.options ∧ CommandLine.Asks g i ∧
      E.Agrees i s ((E.run arguments).run s) := by
  obtain ⟨i, hi, hoptions, hasks⟩ :=
    CommandLine.Matches.exists_asks (hE.input_given arguments g hparse)
  refine ⟨i, hi, hoptions, hasks, ?_⟩
  rw [Environment.run_run hparse hlog hi]
  exact (Environment.carryOut_ends hE i s).agrees hE

/-! ## Directories -/

namespace CommandLine

namespace Given

theorem mem_options_of_check {g : Given} (h : g.check = .ok ()) : .input ∈ g.options := by
  obtain ⟨_, h, -⟩ := bind_eq_ok_iff.1 h
  unfold checkInput at h
  by_contra hnot
  rw [if_neg hnot] at h
  cases h

/-- An option that is given has a value. -/
theorem valuesOf_ne_nil_of_checkOption {g : Given} {o : ValueOption} (ho : o ∈ g.options)
    (h : g.checkOption o = .ok ()) : g.valuesOf o ≠ [] := by
  unfold checkOption at h
  rw [if_neg (not_not.2 ho)] at h
  obtain ⟨_, h, -⟩ := bind_eq_ok_iff.1 h
  unfold checkValue at h
  intro hnil
  rw [hnil] at h
  cases h

theorem checkOption_input_of_check {g : Given} (h : g.check = .ok ()) :
    g.checkOption .input = .ok () := by
  obtain ⟨_, -, h⟩ := bind_eq_ok_iff.1 h
  have hrest : (do ValueOption.all.forM g.checkOption; Flag.all.forM g.checkFlag) =
      Except.ok () := by
    dsimp only at h
    split at h
    · obtain ⟨_, -, h⟩ := bind_eq_ok_iff.1 h
      exact h
    · exact h
  obtain ⟨_, hoptions, -⟩ := bind_eq_ok_iff.1 hrest
  obtain ⟨_, hinput, -⟩ := bind_eq_ok_iff.1 hoptions
  exact hinput

end Given

/-- Arguments that are accepted give an input. -/
theorem parse_input_given {arguments : List String} {g : Matches}
    (h : parse arguments = .ok g) : (g.value? .input).isSome = true := by
  obtain ⟨given, -, h⟩ := bind_eq_ok_iff.1 h
  obtain ⟨_, hcheck, h⟩ := bind_eq_ok_iff.1 h
  cases h
  have hvalues := Given.valuesOf_ne_nil_of_checkOption (Given.mem_options_of_check hcheck)
    (Given.checkOption_input_of_check hcheck)
  rw [← List.isSome_head?] at hvalues
  exact hvalues

end CommandLine

theorem parseArguments_eq_ok_iff {arguments : List String} {g : CommandLine.Matches} :
    parseArguments arguments = .ok g ↔ CommandLine.parse arguments = .ok g :=
  mapError_eq_ok_iff

/-- A directory is an environment of which nothing more is asked. -/
theorem Directory.environment_lawful : Directory.environment.Lawful where
  input_given _ _ h := CommandLine.parse_input_given (parseArguments_eq_ok_iff.1 h)
  read_keeps _ _ := rfl
  print_keeps _ _ := rfl

theorem Directory.environment_create_run {d d' : Directory} {path name : String}
    (h : d.create path = .ok (name, d')) :
    (Directory.environment.create path).run d = (.ok name, d') := by
  show Directory.environment.create path d = _
  unfold Directory.environment
  dsimp only
  rw [h]

/-- The text of a program whose only procedure has an empty body. -/
def emptyMainText : String :=
  "\x7b\"declarations\":[\x7b\"Procedure\":\x7b\"name\":\"main\"\x7d\x7d]\x7d"

/-- What is given by arguments that name a file for the tree and one for the assembly. -/
def inputAndOutput : CommandLine.Given where
  options := [.input, .output]
  values := [(.input, "p"), (.output, "a")]

theorem run_agrees_emptyMain :
    Directory.environment.Lawful ∧
      Directory.environment.parse ["-i", "p", "-o", "a"] = .ok inputAndOutput.found ∧
      inputAndOutput.found.value? .logLevel = none ∧
      ∃ lines, (compile {} ⟨{}, [.procedure { name := "main" }]⟩).answer = .ok lines ∧
        (run ["-i", "p", "-o", "a"] ⟨[("p", emptyMainText)]⟩).1.exit = 0 ∧
        (run ["-i", "p", "-o", "a"] ⟨[("p", emptyMainText)]⟩).1.output = "" ∧
        (run ["-i", "p", "-o", "a"] ⟨[("p", emptyMainText)]⟩).2 =
          ⟨[("p", emptyMainText), ("a", assemblyText lines)]⟩ := by
  have hadd : CommandLine.Given.add {} ["-i", "p", "-o", "a"] = .ok inputAndOutput := by
    decide +kernel
  have hcheck : inputAndOutput.check = .ok () := by decide +kernel
  have hparse : Directory.environment.parse ["-i", "p", "-o", "a"] =
      .ok inputAndOutput.found := by
    refine parseArguments_eq_ok_iff.2 (bind_eq_ok_iff.2 ⟨_, hadd, ?_⟩)
    exact bind_eq_ok_iff.2 ⟨(), hcheck, rfl⟩
  have hread : Directory.read ⟨[("p", emptyMainText)]⟩ "p" = .ok emptyMainText := by cbv
  have hdecode : decodeTree (.ofPath "p") emptyMainText =
      .ok ⟨{}, [.procedure { name := "main" }]⟩ := by cbv
  have hcreate : Directory.create ⟨[("p", emptyMainText)]⟩ "a" =
      .ok ("a", ⟨[("p", emptyMainText), ("a", "")]⟩) := by cbv
  have hsome :
      (compile {} ⟨{}, [.procedure { name := "main" }]⟩).answer.toOption.isSome = true := by
    decide +kernel
  obtain ⟨lines, hc⟩ := exists_ok_of_isSome hsome
  obtain ⟨i, hi, -, -, h⟩ :=
    run_agrees Directory.environment_lawful hparse rfl ⟨[("p", emptyMainText)]⟩
  cases hi
  obtain ⟨houtput, hdone⟩ := h.written rfl "a" rfl
  have hcreated : (Directory.environment.create "a").run ⟨[("p", emptyMainText)]⟩ =
      (.ok "a", ⟨[("p", emptyMainText), ("a", "")]⟩) := Directory.environment_create_run hcreate
  obtain ⟨hexit, hfiles⟩ := (hdone ⟨[("p", emptyMainText), ("a", assemblyText lines)]⟩).2
    ⟨_, lines, "a", _, ⟨_, emptyMainText, Format.ofPath_suits "p", hread, hdecode⟩, hc, hcreated,
      rfl⟩
  exact ⟨Directory.environment_lawful, hparse, rfl, lines, hc, hexit, houtput, hfiles⟩

end Spl
