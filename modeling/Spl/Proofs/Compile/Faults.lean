import Spl.Proofs.Code.Programs
import Spl.Tree.Build

/-!
# Faults of a compilation

A fault is a bug of the compiler. On a new tree the first two phases end in none, and after they
have succeeded the last two end in none but an overflow. Whether a sum overflows depends on the
sizes of the frames.

* `outcomes_of_isFresh`: the outcomes of a compilation.
* `no_fault_iff_frameFits`: the exact condition under which no sum overflows.
* `exists_accepted_overflow`: an accepted program may violate it.
-/

namespace Spl

open SymbolTable

variable {t : SymbolTable} {p : Program}

/-- The last two phases of an accepted program succeed, run out of registers, or end in the overflow
of a sum. -/
theorem Accepted.outcomes (hA : Accepted t p) (o : Options) :
    (∃ lines t', (allocateAndGenerate o p).run t = .ok lines t') ∨
      (∃ position t', (allocateAndGenerate o p).run t =
        .error (.error ⟨position, .registersExhausted⟩) t') ∨
      ∃ t', (allocateAndGenerate o p).run t = .error (.fault (.overflow .addition)) t' := by
  have h := allocateAndGenerate_ends (A := True) (o := o) hA (.inr trivial)
  cases hr : (allocateAndGenerate o p).run t with
  | ok lines t' => exact .inl ⟨lines, t', rfl⟩
  | error e t' =>
    have he := h.error hr
    cases e with
    | error e =>
      obtain ⟨position, cause⟩ := e
      have hc : cause = .registersExhausted := he
      exact .inr (.inl ⟨position, t', by rw [hc]⟩)
    | fault f =>
      have hf : f = .overflow .addition := he.1
      exact .inr (.inr ⟨t', by rw [hf]⟩)

/-- On a program with empty slots the first two phases end in no fault. If they succeed, then the
last two generate code, run out of registers, or end in an overflow. -/
theorem outcomes_of_isFresh (o : Options) (p : Program) (h : p.isFresh = true) :
    (∀ f, (buildAndCheck o p).answer ≠ .error (.fault f)) ∧
      ∀ t, (buildAndCheck o p).answer = .ok t →
        (∃ lines t', (allocateAndGenerate o (buildAndCheck o p).tree).run t = .ok lines t') ∨
        (∃ position t', (allocateAndGenerate o (buildAndCheck o p).tree).run t =
          .error (.error ⟨position, .registersExhausted⟩) t') ∨
        ∃ op t', (allocateAndGenerate o (buildAndCheck o p).tree).run t =
          .error (.fault (.overflow op)) t' := by
  refine ⟨fun f => (buildAndCheck_meets o p (.inl h)).not_fault f, fun t ht => ?_⟩
  refine ((Accepted.of_ok ht).outcomes o).imp_right (Or.imp_right ?_)
  exact fun ⟨t', hr⟩ => ⟨.addition, t', hr⟩

section
open Build

/-- A program that passes an array by reference, indexes it and calls the library. -/
def squares : Program := program [
  typeDecl "vector" (arrayType 8 intType),
  procDecl "fill" [refParam "v" (namedType "vector"), param "n" intType] [varDecl "i" intType] [
    assign (named "i") (int 0),
    whileDo (binary (.compare .lst) (var (named "i")) (var (named "n"))) (compound [
      assign (index (named "v") (var (named "i")))
        (binary (.arith .mul) (var (named "i")) (var (named "i"))),
      assign (named "i") (binary (.arith .add) (var (named "i")) (int 1))])],
  procDecl "main" [] [varDecl "v" (namedType "vector")] [
    call "fill" [var (named "v"), int 8],
    call "printi" [var (index (named "v") (int 7))]]]

/-- The program is new, it is accepted and compiled, its procedures have few parameters, and its
code draws few labels. -/
theorem squares_compiles : squares.isFresh = true ∧
    (buildAndCheck {} squares).answer.toOption.isSome = true ∧
    (compile {} squares).answer.toOption.isSome = true ∧
    (∀ d ∈ (buildAndCheck {} squares).tree.procedures, d.parameters.length ≤ 1000) ∧
    (buildAndCheck {} squares).tree.labels < UInt32.size := by
  decide +kernel

theorem outcomes_of_isFresh_squares :
    squares.isFresh = true ∧ (buildAndCheck {} squares).answer.toOption.isSome = true ∧
      (∀ f, (buildAndCheck {} squares).answer ≠ .error (.fault f)) ∧
      ∀ t, (buildAndCheck {} squares).answer = .ok t →
        (∃ lines t', (allocateAndGenerate {} (buildAndCheck {} squares).tree).run t =
          .ok lines t') ∨
        (∃ position t', (allocateAndGenerate {} (buildAndCheck {} squares).tree).run t =
          .error (.error ⟨position, .registersExhausted⟩) t') ∨
        ∃ op t', (allocateAndGenerate {} (buildAndCheck {} squares).tree).run t =
          .error (.fault (.overflow op)) t' :=
  ⟨squares_compiles.1, squares_compiles.2.1, outcomes_of_isFresh {} squares squares_compiles.1⟩

end

/-! ## Overflows -/

theorem foldl_max_le {k n : Nat} {cs : List Call} (hn : n ≤ k)
    (hc : ∀ c ∈ cs, c.arguments.length ≤ k) :
    cs.foldl (fun n c => max n c.arguments.length) n ≤ k := by
  induction cs generalizing n with
  | nil => exact hn
  | cons c cs ih =>
    rw [List.foldl_cons]
    exact ih (Nat.max_le.2 ⟨hn, hc c (.head _)⟩) fun c' hc' => hc c' (.tail _ hc')

theorem Builtin.length_signature_le {b : Builtin} (hb : b ∈ builtins) : b.signature.length ≤ 5 := by
  have h : ∀ b ∈ builtins, b.parameters.length ≤ 5 := by decide
  rw [signature, List.length_mapIdx]
  exact h b hb

/-- Where no procedure has more than `k` parameters, no procedure is called with more arguments. -/
theorem Accepted.argumentRoom (hA : Accepted t p)
    (hp : ∀ d ∈ p.procedures, d.parameters.length ≤ 1000) {d : ProcDecl} (hd : d ∈ p.procedures) :
    d.ArgumentRoom := by
  have hsig : ∀ {name : String} {Q : Procedure}, t.procedure? name = some Q →
      Q.parameters.length ≤ 1000 := fun {name Q} hQ => by
    rcases hA.holds.procedure_cases hQ with ⟨b, hb, -, hps⟩ | ⟨d', hd', -, hQ'⟩
    · rw [hps]
      exact Nat.le_trans (Builtin.length_signature_le hb) (by decide)
    · obtain ⟨d'', hd'', rfl⟩ := List.mem_map.1 hd'
      rw [← hQ'.parameters.length_eq]
      exact hp d'' hd''
  obtain ⟨P, hP⟩ := hA.declares hd
  have hcalls : ∀ c ∈ d.calls, c.arguments.length ≤ 1000 := fun c hc => by
    obtain ⟨s, hs, hcs⟩ := Stmt.mem_callsOf.1 hc
    obtain ⟨Q, hQ, hlen⟩ := ((hA.bodies d hd P hP s hs).calls c hcs).procedure? hP
    rw [hlen]
    exact hsig hQ
  have hlong : d.longestCall ≤ 1000 := foldl_max_le (Nat.zero_le _) hcalls
  have hpd := hp d hd
  exact ⟨by unfold Word.maxNat; omega, by unfold Word.maxNat; omega⟩

/-- Where all sums fit, no phase ends in a fault. -/
theorem Accepted.not_fault (hA : Accepted t p) {o : Options} (hroom : p.Room o.leaves) (f : Fault)
    (t' : SymbolTable) : (allocateAndGenerate o p).run t ≠ .error (.fault f) t' := by
  intro hr
  exact ((allocateAndGenerate_ends (A := False) hA (.inl hroom)).error hr).2

theorem ProcDecl.CodeOf.code {s : RegisterStack} {n : Nat} {ds : List ProcDecl} {code : List Line}
    (h : ProcDecl.CodeOf t s n ds code) :
    ∀ d ∈ ds, ∃ (n : Nat) (c : List Line), ProcDecl.Code t s n d c := by
  induction h with
  | nil => simp
  | cons hc _ ih =>
    intro d hd
    rcases List.mem_cons.1 hd with rfl | hd
    · exact ⟨_, _, hc⟩
    · exact ih d hd

/-- Where code is generated, all frames fit. -/
theorem Accepted.frameFits (hA : Accepted t p) {o : Options} {lines : List Line} {t' : SymbolTable}
    (hr : (allocateAndGenerate o p).run t = .ok lines t') : ∀ d ∈ p.procedures,
      d.FrameFits o.leaves := by
  obtain ⟨hal, code, hcode, -⟩ :=
    (allocateAndGenerate_ends (A := True) hA (.inr trivial)).ok hr
  intro d hd
  obtain ⟨P, hP, hp⟩ := hal.placed d hd
  obtain ⟨n, c, hc⟩ := hcode.code d hd
  exact hc.frameFits hal.accepted.holds hP hp

/-- The last two phases of an accepted program with few parameters and labels end in no fault
exactly if all frames fit, or the registers run out first. -/
theorem no_fault_iff_frameFits (o : Options) (p : Program) (t : SymbolTable)
    (ht : (buildAndCheck o p).answer = .ok t)
    (hparams : ∀ d ∈ (buildAndCheck o p).tree.procedures, d.parameters.length ≤ 1000)
    (hlabels : (buildAndCheck o p).tree.labels < UInt32.size) :
    (∀ f t', (allocateAndGenerate o (buildAndCheck o p).tree).run t ≠ .error (.fault f) t') ↔
      (∀ d ∈ (buildAndCheck o p).tree.procedures, d.FrameFits o.leaves) ∨
      ∃ position t', (allocateAndGenerate o (buildAndCheck o p).tree).run t =
        .error (.error ⟨position, .registersExhausted⟩) t' := by
  have hA := Accepted.of_ok ht
  constructor
  · intro hf
    rcases hA.outcomes o with ⟨lines, t', hr⟩ | ⟨position, t', hr⟩ | ⟨t', hr⟩
    · exact .inl (hA.frameFits hr)
    · exact .inr ⟨position, t', hr⟩
    · exact absurd hr (hf _ t')
  · intro hsafe f t''
    rcases hsafe with hfits | ⟨position, t', hr⟩
    · exact hA.not_fault ⟨fun d hd => hA.argumentRoom hparams hd, hfits, hlabels⟩ f t''
    · rw [hr]
      exact nofun

theorem no_fault_iff_frameFits_squares : ∃ t, (buildAndCheck {} squares).answer = .ok t ∧
    (∀ d ∈ (buildAndCheck {} squares).tree.procedures, d.parameters.length ≤ 1000) ∧
    (buildAndCheck {} squares).tree.labels < UInt32.size ∧
    ((∀ f t', (allocateAndGenerate {} (buildAndCheck {} squares).tree).run t ≠
        .error (.fault f) t') ↔
      (∀ d ∈ (buildAndCheck {} squares).tree.procedures, d.FrameFits false) ∨
      ∃ position t', (allocateAndGenerate {} (buildAndCheck {} squares).tree).run t =
        .error (.error ⟨position, .registersExhausted⟩) t') := by
  obtain ⟨-, hsome, -, hparams, hlabels⟩ := squares_compiles
  cases ht : (buildAndCheck {} squares).answer with
  | error e =>
    rw [ht] at hsome
    cases hsome
  | ok t => exact ⟨t, rfl, hparams, hlabels, no_fault_iff_frameFits {} squares t ht hparams hlabels⟩

section
open Build

/-- A program whose local variables leave room for the linkage words, but not for the arguments of
a call as well. -/
def largestLocals : Program := program [
  procDecl "f" [param "a" intType] [] [],
  procDecl "main" [] [varDecl "x" (arrayType 536870909 intType)] [call "f" [int 1]]]

/-- True of the outcome of a compilation that an overflow ends after the program has been
accepted. -/
def overflowsAccepted (o : Options) (p : Program) : Bool :=
  match (buildAndCheck o p).answer with
  | .error _ => false
  | .ok t =>
    match (allocateAndGenerate o (buildAndCheck o p).tree).run t with
    | .error (.fault (.overflow .addition)) _ => true
    | .error _ _ | .ok _ _ => false

/-- An accepted program, with few parameters and no labels, whose compilation ends in an
overflow. -/
theorem exists_accepted_overflow :
    largestLocals.isFresh = true ∧
      (∀ d ∈ (buildAndCheck {} largestLocals).tree.procedures, d.parameters.length ≤ 1000) ∧
      (buildAndCheck {} largestLocals).tree.labels < UInt32.size ∧
      ∃ t t', (buildAndCheck {} largestLocals).answer = .ok t ∧
        (allocateAndGenerate {} (buildAndCheck {} largestLocals).tree).run t =
          .error (.fault (.overflow .addition)) t' := by
  have hall : largestLocals.isFresh = true ∧
      (∀ d ∈ (buildAndCheck {} largestLocals).tree.procedures, d.parameters.length ≤ 1000) ∧
      (buildAndCheck {} largestLocals).tree.labels < UInt32.size ∧
      overflowsAccepted {} largestLocals = true := by decide +kernel
  obtain ⟨hfresh, hparams, hlabels, h⟩ := hall
  refine ⟨hfresh, hparams, hlabels, ?_⟩
  unfold overflowsAccepted at h
  split at h
  · cases h
  · next t ht =>
    split at h
    · next t' hr => exact ⟨t, t', ht, hr⟩
    · cases h
    · cases h

end

end Spl
