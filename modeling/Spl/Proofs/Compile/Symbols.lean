import Spl.Proofs.Code.Labels
import Spl.Proofs.Compile.Faults

/-!
# Symbols of a module

The names of procedures, the local labels and the imported names share one name space. The table
keeps the names of procedures apart from each other and from the builtins, but knows neither the
error routine nor the local labels.

* `Unambiguous`: every symbol of a module has one definition.
* `unambiguous_iff`: the exact condition for it.
* `exists_ambiguous`: an accepted program may violate it.
-/

namespace Spl

open SymbolTable

variable {t : SymbolTable} {p : Program} {o : Options} {lines : List Line}

/-- Every symbol of a module has one definition: no name is defined twice, none is both imported and
defined, and all targets are either imported or defined once. -/
structure Unambiguous (lines : List Line) : Prop where
  nodup : (labelsIn lines).Nodup
  imported : ∀ l ∈ importsIn lines, l ∉ labelsIn lines
  targets : ∀ l ∈ targetsIn lines, l ∈ importsIn lines ∨ (labelsIn lines).count l = 1

/-- The procedures keep clear of the error routine and of the local labels of their program. -/
def Program.AvoidsGenerated (p : Program) : Prop :=
  ∀ d ∈ p.procedures, d.name ≠ indexErrorRoutine ∧ ∀ n < p.labels, d.name ≠ labelName n

instance (p : Program) : Decidable p.AvoidsGenerated :=
  inferInstanceAs (Decidable (∀ d ∈ p.procedures,
    d.name ≠ indexErrorRoutine ∧ ∀ n < p.labels, d.name ≠ labelName n))

/-! ## The symbols of generated code -/

/-- What the code of a program may go to. -/
def Program.Target (t : SymbolTable) (p : Program) (l : String) : Prop :=
  l = indexErrorRoutine ∨ (∃ Q, t.procedure? l = some Q) ∨ l ∈ drawn 0 p.labels

theorem Accepted.calls_target (hA : Accepted t p) {d : ProcDecl} (hd : d ∈ p.procedures) {c : Call}
    (hc : c ∈ d.calls) : p.Target t c.procedure := by
  obtain ⟨P, hP⟩ := hA.declares hd
  obtain ⟨s, hs, hcs⟩ := Stmt.mem_callsOf.1 hc
  obtain ⟨Q, hQ, -⟩ := ((hA.bodies d hd P hP s hs).calls c hcs).procedure? hP
  exact .inr (.inl ⟨Q, hQ⟩)

theorem importsIn_prologueLines :
    importsIn prologueLines = builtins.map Builtin.name ++ [indexErrorRoutine] := rfl

theorem labelsIn_prologueLines : labelsIn prologueLines = [] := rfl

theorem targetsIn_prologueLines : targetsIn prologueLines = [] := rfl

/-- The symbols of a module: it defines the procedures and the local labels, imports the library and
the error routine, and goes to these and to procedures of the table. -/
theorem ProcDecl.CodeOf.symbols {code : List Line} (hA : Accepted t p)
    (h : ProcDecl.CodeOf t {} 0 p.procedures code) :
    (labelsIn (prologueLines ++ code)).Perm
        (p.procedures.map (·.name) ++ drawn 0 p.labels) ∧
      importsIn (prologueLines ++ code) = builtins.map Builtin.name ++ [indexErrorRoutine] ∧
      ∀ l ∈ targetsIn (prologueLines ++ code), p.Target t l := by
  have hT : Allows (p.Target t) 0 p.labels :=
    ⟨.inl rfl, fun l hl => .inr (.inr hl)⟩
  have hf := h.fragment hT fun d hd c hc => hA.calls_target hd hc
  rw [labelsIn_append, labelsIn_prologueLines, List.nil_append, importsIn_append,
    importsIn_prologueLines, hf.imports, List.append_nil, targetsIn_append,
    targetsIn_prologueLines, List.nil_append]
  exact ⟨hf.labels, rfl, hf.targets⟩

theorem Builtin.head?_name_ne {b : Builtin} (hb : b ∈ builtins) :
    b.name.toList.head? ≠ some 'L' := by
  have h : ∀ b ∈ builtins, b.name.toList.head? ≠ some 'L' := by decide
  exact h b hb

/-- No local label is imported. -/
theorem labelName_not_imported (n : Nat) :
    labelName n ∉ builtins.map Builtin.name ++ [indexErrorRoutine] := by
  intro h
  rcases List.mem_append.1 h with h | h
  · obtain ⟨b, hb, hn⟩ := List.mem_map.1 h
    exact labelName_ne (Builtin.head?_name_ne hb) n hn.symm
  · exact labelName_ne (by decide) n (List.mem_singleton.1 h)

/-- A module of an accepted program is unambiguous exactly if no procedure has the name of the error
routine or of a local label. -/
theorem ProcDecl.CodeOf.unambiguous_iff_avoidsGenerated {code : List Line} (hA : Accepted t p)
    (h : ProcDecl.CodeOf t {} 0 p.procedures code) :
    Unambiguous (prologueLines ++ code) ↔ p.AvoidsGenerated := by
  obtain ⟨hlabels, himports, htargets⟩ := h.symbols hA
  have hnames : p.heads.map (·.name) = p.procedures.map (·.name) := by
    rw [Program.heads, List.map_map]
    rfl
  constructor
  · intro hu d hd
    have hdn : d.name ∈ p.procedures.map (·.name) := List.mem_map_of_mem hd
    constructor
    · intro he
      refine hu.imported d.name ?_ (hlabels.mem_iff.2 (List.mem_append_left _ hdn))
      rw [himports, he]
      exact List.mem_append_right _ (.head _)
    · intro n hn he
      have hnodup := hlabels.nodup_iff.1 hu.nodup
      exact (List.disjoint_of_nodup_append hnodup) hdn
        (mem_drawn.2 ⟨n, Nat.zero_le n, by omega, he.symm⟩)
  · intro hav
    have hdisjoint : (p.procedures.map (·.name)).Disjoint (drawn 0 p.labels) := by
      intro l hl hl'
      obtain ⟨d, hd, rfl⟩ := List.mem_map.1 hl
      obtain ⟨n, -, hn, he⟩ := mem_drawn.1 hl'
      exact (hav d hd).2 n (by omega) he.symm
    have hnodup : (labelsIn (prologueLines ++ code)).Nodup := hlabels.nodup_iff.2
      (List.Nodup.append (hnames ▸ hA.holds.nodup) (nodup_drawn 0 p.labels) hdisjoint)
    have hone : ∀ l ∈ p.procedures.map (·.name) ++ drawn 0 p.labels,
        (labelsIn (prologueLines ++ code)).count l = 1 := fun l hl =>
      List.count_eq_one_of_mem hnodup (hlabels.mem_iff.2 hl)
    refine ⟨hnodup, fun l hl hl' => ?_, fun l hl => ?_⟩
    · rw [himports] at hl
      rcases List.mem_append.1 (hlabels.mem_iff.1 hl') with hl' | hl'
      · obtain ⟨d, hd, rfl⟩ := List.mem_map.1 hl'
        rcases List.mem_append.1 hl with hl | hl
        · obtain ⟨b, hb, hn⟩ := List.mem_map.1 hl
          exact hA.holds.notBuiltin d.head (List.mem_map_of_mem hd) b hb hn.symm
        · exact (hav d hd).1 (List.mem_singleton.1 hl)
      · obtain ⟨n, -, -, rfl⟩ := mem_drawn.1 hl'
        exact labelName_not_imported n hl
    · rw [himports]
      rcases htargets l hl with rfl | ⟨Q, hQ⟩ | hl
      · exact .inl (List.mem_append_right _ (.head _))
      · rcases hA.holds.only l _ (procedure?_eq_some_iff.1 hQ) with
          ⟨ty, hty, -⟩ | ⟨-, ⟨b, hb, rfl⟩ | ⟨d, hd, rfl⟩⟩
        · cases hty
        · exact .inl (List.mem_append_left _ (List.mem_map_of_mem hb))
        · refine .inr (hone _ (List.mem_append_left _ ?_))
          rw [← hnames]
          exact List.mem_map_of_mem hd
      · exact .inr (hone l (List.mem_append_right _ hl))

/-! ## Compiled programs -/

theorem compile_eq_ok_iff : (compile o p).answer = .ok lines ↔
    ∃ t t', (buildAndCheck o p).answer = .ok t ∧
      (allocateAndGenerate o (buildAndCheck o p).tree).run t = .ok lines t' := by
  unfold compile
  dsimp only
  cases hb : (buildAndCheck o p).answer with
  | error e => simp [Except.mapError, bind, Except.bind]
  | ok t =>
    cases hg : (allocateAndGenerate o (buildAndCheck o p).tree).run t with
    | ok ls t' => simp [Except.mapError, bind, Except.bind, hg]
    | error e t' => simp [Except.mapError, bind, Except.bind, hg]

/-- The module of a compiled program is unambiguous exactly if no procedure has the name of the
error routine or of a local label. -/
theorem unambiguous_iff (o : Options) (p : Program) (lines : List Line)
    (h : (compile o p).answer = .ok lines) :
    Unambiguous lines ↔ (compile o p).tree.AvoidsGenerated := by
  obtain ⟨t, t', ht, hr⟩ := compile_eq_ok_iff.1 h
  obtain ⟨hal, code, hcode, rfl⟩ :=
    (allocateAndGenerate_ends (A := True) (Accepted.of_ok ht) (.inr trivial)).ok hr
  exact hcode.unambiguous_iff_avoidsGenerated hal.accepted

theorem unambiguous_iff_squares : ∃ lines, (compile {} squares).answer = .ok lines ∧
    (Unambiguous lines ↔ (compile {} squares).tree.AvoidsGenerated) ∧ Unambiguous lines := by
  have hsome := squares_compiles.2.2.1
  cases hc : (compile {} squares).answer with
  | error e =>
    rw [hc] at hsome
    cases hsome
  | ok lines =>
    have h := unambiguous_iff {} squares lines hc
    exact ⟨lines, rfl, h, h.2 (by decide +kernel)⟩

section
open Build

/-- A letter or an underscore, followed by letters, digits and underscores. -/
def isIdentifier (name : String) : Bool :=
  match name.toList with
  | [] => false
  | c :: cs => (c.isAlpha || c == '_') && cs.all fun c => c.isAlphanum || c == '_'

/-- A program with a procedure of the name of the error routine, and one of the name of a local
label. -/
def rivals : Program := program [
  procDecl "_indexError" [] [] [],
  procDecl "L0" [] [] [],
  procDecl "main" [] [] [
    ifThen (binary (.compare .lst) (int 1) (int 2)) (call "L0" [])]]

/-- An accepted program whose procedures have ordinary names and whose module defines a name twice,
defines an imported one, and goes to a name that is defined twice. -/
theorem exists_ambiguous : rivals.isFresh = true ∧
    (∀ d ∈ (compile {} rivals).tree.procedures, isIdentifier d.name = true) ∧
    ∃ lines, (compile {} rivals).answer = .ok lines ∧ ¬(labelsIn lines).Nodup ∧
      (∃ l ∈ importsIn lines, l ∈ labelsIn lines) ∧
      ∃ l ∈ targetsIn lines, l ∉ importsIn lines ∧ (labelsIn lines).count l = 2 := by
  refine ⟨by decide +kernel, by decide +kernel, ?_⟩
  have hall : (match (compile {} rivals).answer with
    | .error _ => false
    | .ok lines => decide (¬(labelsIn lines).Nodup) &&
        ((importsIn lines).any (· ∈ labelsIn lines) &&
          (targetsIn lines).any fun l => l ∉ importsIn lines && (labelsIn lines).count l == 2)) =
      true := by decide +kernel
  cases hc : (compile {} rivals).answer with
  | error e =>
    rw [hc] at hall
    cases hall
  | ok lines =>
    rw [hc, Bool.and_eq_true, Bool.and_eq_true, decide_eq_true_eq, List.any_eq_true,
      List.any_eq_true] at hall
    obtain ⟨hnodup, ⟨l, hl, hl'⟩, l', hl'', htwice⟩ := hall
    rw [Bool.and_eq_true, decide_eq_true_eq, beq_iff_eq] at htwice
    exact ⟨lines, rfl, hnodup, ⟨l, hl, of_decide_eq_true hl'⟩, l', hl'', htwice⟩

end

end Spl
