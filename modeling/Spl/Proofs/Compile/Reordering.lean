import Mathlib.Logic.Function.Basic
import Spl.Proofs.Compile.Leaves
import Spl.Proofs.Compile.Symbols
import Spl.Proofs.Frame.Reordering

/-!
# Procedures in another order

A program is compiled twice, with its procedures in two orders. The phases accept both programs or
none, give every procedure the same parameters, variables, places and frame, and generate the same
block for it, but for the numbers of its local labels.

* `Inst.Renumbered`, `ProcDecl.SameBlock`: blocks that differ in the numbers of local labels.
* `ProcDecl.code_reordered`: the block of a procedure.
* `codeOfProcedures_reordered`: the blocks of procedures in any order.
* `compile_reordered`: the four phases.
-/

namespace Spl

open SymbolTable

/-! ## Numbers of labels -/

namespace Inst

/-- True of the instructions that name a local label. -/
def isLocal : Inst → Bool
  | .label _ | .jump _ => true
  | .branch _ _ _ target => target ≠ indexErrorRoutine
  | .importName _ | .exportName _ | .code | .align _ | .blank | .alu .. | .load .. | .store ..
  | .jumpRegister _ | .call _ => false

/-- The same instruction, where local labels are counted from `n'` instead of `n`. -/
inductive Renumbered (n n' : Nat) : Inst → Inst → Prop
  | label (i : Nat) : Renumbered n n' (.label (labelName (n + i))) (.label (labelName (n' + i)))
  | jump (i : Nat) : Renumbered n n' (.jump (labelName (n + i))) (.jump (labelName (n' + i)))
  | branch {cond : Cond} {a b : Reg} (i : Nat) :
      Renumbered n n' (.branch cond a b (labelName (n + i))) (.branch cond a b (labelName (n' + i)))
  | same {inst : Inst} : inst.isLocal = false → Renumbered n n' inst inst

theorem isLocal_of_isShared {base : Reg} {i : Inst} (h : i.isShared base = true) :
    i.isLocal = false := by
  cases i with
  | label _ | jump _ => cases h
  | branch _ _ _ target => simpa [isShared, isLocal] using h
  | _ => rfl

/-- Sites that reach variables alike differ in the numbers of labels. -/
theorem Corresponds.renumbered {l r : Site} {x y : Inst} (h : x.Corresponds l r y)
    (hbase : r.addressing.base = l.addressing.base)
    (hbias : r.addressing.bias = l.addressing.bias) :
    x.Renumbered l.firstLabel r.firstLabel y := by
  cases h with
  | address hw hw' =>
    rw [hbias, hw, Except.ok.injEq] at hw'
    rw [hbase, hw']
    exact .same rfl
  | label i => exact .label i
  | jump i => exact .jump i
  | branch i => exact .branch i
  | shared hs => exact .same (isLocal_of_isShared hs)

end Inst

/-- The same line, where local labels are counted from `n'` instead of `n`. -/
structure Line.Renumbered (n n' : Nat) (x y : Line) : Prop where
  inst : x.inst.Renumbered n n' y.inst
  comment : y.comment = x.comment

/-- Two blocks of a procedure that differ in the numbers of the local labels of the body: there is
one constant between all numbers of the one block and those of the other one. -/
def ProcDecl.SameBlock (d : ProcDecl) (b b' : List Line) : Prop :=
  ∃ (n n' : Nat) (entry body body' exit : List Line),
    b = d.block entry body exit ∧ b' = d.block entry body' exit ∧
      List.Forall₂ (Line.Renumbered n n') body body'

/-! ## Blocks -/

section

variable {leaves leaves' : Bool} {t t' u u' : SymbolTable} {q q' : Program} {d : ProcDecl}
  {P P' : Procedure} {g : Generator} {s : RegisterStack}

theorem Procedure.Alike.addressing (h : P.Alike u u' P') (size : Word) :
    (P'.addressing size).base = (P.addressing size).base ∧
      (P'.addressing size).bias = (P.addressing size).bias := by
  unfold Procedure.addressing
  rw [h.layout]
  split <;> exact ⟨rfl, rfl⟩

/-- In the body of a procedure that two tables hold alike, names stand for the same. -/
theorem SymbolTable.Alike.agrees (ha : u.Alike u') (hP : P.Alike u u' P') (size : Word)
    (n n' : Nat) : Site.Agrees ⟨u, P.addressing size, n⟩ ⟨u', P'.addressing size, n'⟩ where
  variable_eq name := by
    have hrel := ha.find? hP name
    dsimp only
    unfold variableAt
    rw [P.addressing_scope, P'.addressing_scope]
    generalize u.find? P.localScope name = o at hrel ⊢
    generalize u'.find? P'.localScope name = o' at hrel ⊢
    cases hrel with
    | none => rfl
    | some h =>
      rcases h with rfl | h
      · rfl
      · cases h <;> rfl
  parameters_eq name := by
    have hrel := ha.procedure? name
    dsimp only
    generalize u.procedure? name = o at hrel ⊢
    generalize u'.procedure? name = o' at hrel ⊢
    cases hrel with
    | none => rfl
    | some h => exact congrArg some h.parameters
  base_ne := (P.addressing_base_kept size).1
  base_isFree := (P.addressing_base_kept size).2

/-- In some state with the registers `s` in use, the code of the procedure is the given block. -/
def ProcDecl.Generates (t : SymbolTable) (s : RegisterStack) (d : ProcDecl) (b : List Line) :
    Prop :=
  ∃ (g : Generator) (k : Nat), g.registers = s ∧ d.code t g = .ok () (g.add k b)

theorem Generator.code_eq_of_add_eq {j k : Nat} {b c : List Line} (h : g.add j b = g.add k c) :
    b = c := by
  have hl := congrArg (fun g : Generator => g.lines.toList) h
  simpa [add] using hl

/-- A procedure for which code is generated gets the same block in any state and in the other order,
or its code ends in a fault there. -/
theorem ProcDecl.code_reordered (hal : Allocated leaves u q) (hal' : Allocated leaves' u' q')
    (hd : d ∈ q.procedures) (hd' : d ∈ q'.procedures) (ha : u.Alike u') {b : List Line}
    (hb : d.Generates u s b) (hg : g.registers = s) :
    (∃ f g', d.code u' g = .error (.fault f) g') ∨
      ∃ k b', d.code u' g = .ok () (g.add k b') ∧ d.SameBlock b b' := by
  obtain ⟨P, hP, hp⟩ := hal.placed d hd
  obtain ⟨P', hP', -⟩ := hal'.placed d hd'
  obtain ⟨Q, hQ, halike⟩ := ha.exists_procedure? hP.procedure
  rw [hP'.procedure, Option.some.injEq] at hQ
  subst hQ
  obtain ⟨g₀, k₀, hg₀, hrun⟩ := hb
  obtain ⟨size, hf⟩ | hfault := hp.framed_or_fault hP g₀
  swap
  · rw [hfault] at hrun
    cases hrun
  have hf' : P'.Framed size := ⟨halike.layout ▸ hf.size, halike.layout ▸ hf.linkage⟩
  have htwin := code_twin hP.procedure hP'.procedure hf hf' (hg.trans hg₀.symm) rfl rfl
    (ha.agrees halike size g₀.nextLabel g.nextLabel)
  rw [hrun] at htwin
  -- The labels are counted from another number there, so only the second run may still overflow.
  generalize d.code u' g = o at htwin ⊢
  cases htwin with
  | faultRight => exact .inl ⟨_, _, rfl⟩
  | ok hok =>
    obtain ⟨k, entry, entry', body, body', exit, exit', hentry, hentry', hbody, hexit, hexit', hadd,
      rfl⟩ := hok
    rw [halike.layout] at hentry' hexit'
    cases hentry.unique hentry'
    cases hexit.unique hexit'
    obtain ⟨hbase, hbias⟩ := halike.addressing size
    refine .inr ⟨k, _, rfl, g₀.nextLabel, g.nextLabel, entry, body, body', exit,
      Generator.code_eq_of_add_eq hadd, rfl, hbody.imp fun x y hxy => ?_⟩
    exact ⟨hxy.inst.renumbered hbase hbias, hxy.comment⟩

/-- A block for one procedure, and for the others the blocks that they had. -/
theorem exists_blocks_cons {R : ProcDecl → List Line → Prop} {l : List ProcDecl}
    {b : ProcDecl → List Line} {c : List Line} (hd : d ∉ l) (hc : R d c)
    (hb : ∀ d' ∈ l, R d' (b d')) : ∃ b' : ProcDecl → List Line,
      (d :: l).flatMap b' = c ++ l.flatMap b ∧ ∀ d' ∈ d :: l, R d' (b' d') := by
  classical
  have hother : ∀ d' ∈ l, Function.update b d c d' = b d' := fun d' hd' =>
    Function.update_of_ne (fun h : d' = d => hd (h ▸ hd')) c b
  refine ⟨Function.update b d c, ?_, fun d' hd' => ?_⟩
  · rw [List.flatMap_cons, Function.update_self, List.flatMap_congr hother]
  · rcases List.mem_cons.1 hd' with rfl | hd'
    · rwa [Function.update_self]
    · rw [hother d' hd']
      exact hb d' hd'

/-- The code of procedures consists of their blocks in order. -/
theorem codeOfProcedures_blocks (hal : Allocated leaves u q) : ∀ {l : List ProcDecl}
    {g : Generator}, (∀ d ∈ l, d ∈ q.procedures) → l.Nodup → g.registers = s →
      Ends (fun _ => True) (fun _ g' => ∃ (k : Nat) (b : ProcDecl → List Line),
        g' = g.add k (l.flatMap b) ∧ ∀ d ∈ l, d.Generates u s (b d)) (codeOfProcedures u l) g
  | [], g, _, _, _ => ⟨0, fun _ => [], Generator.add_zero_nil.symm, fun _ h => nomatch h⟩
  | d :: l, g, hl, hnd, hg => by
    obtain ⟨hd, hl⟩ := List.forall_mem_cons.1 hl
    obtain ⟨hdl, hnd⟩ := List.nodup_cons.1 hnd
    have hends : Ends (fun _ => True) (fun _ g₁ => ∃ c, d.Generates u s c ∧ g₁ = g.add d.labels c)
        (d.code u) g := by
      have hcode : Ends (CodeFailure True) _ (d.code u) g := d.code_ends hal hd (.inr trivial)
      unfold Ends at hcode ⊢
      cases hrun : d.code u g with
      | error e g₁ => trivial
      | ok _ g₁ =>
        rw [hrun] at hcode
        obtain ⟨c, -, rfl⟩ := hcode
        exact ⟨c, ⟨g, d.labels, hg, hrun⟩, rfl⟩
    unfold codeOfProcedures
    refine hends.bind ?_
    intro _ _ hrun
    obtain ⟨c, hc, rfl⟩ := hrun
    have hg' : (g.add d.labels c).registers = s := hg
    refine (codeOfProcedures_blocks hal hl hnd hg').mono ?_
    intro _ _ hrun
    obtain ⟨k, b, rfl, hb⟩ := hrun
    obtain ⟨b', hb', hall⟩ := exists_blocks_cons hdl hc hb
    exact ⟨d.labels + k, b', by rw [hb', Generator.add_add], hall⟩

/-- Procedures for which code is generated get the same blocks in any order, or their code ends in a
fault there. -/
theorem codeOfProcedures_reordered (hal : Allocated leaves u q) (hal' : Allocated leaves' u' q')
    (ha : u.Alike u') {b : ProcDecl → List Line} : ∀ {l : List ProcDecl} {g : Generator},
      (∀ d ∈ l, d ∈ q.procedures ∧ d ∈ q'.procedures ∧ d.Generates u s (b d)) → l.Nodup →
      g.registers = s → (∃ f g', codeOfProcedures u' l g = .error (.fault f) g') ∨
        ∃ (k : Nat) (b' : ProcDecl → List Line),
          codeOfProcedures u' l g = .ok () (g.add k (l.flatMap b')) ∧
          ∀ d ∈ l, d.SameBlock (b d) (b' d)
  | [], g, _, _, _ => .inr ⟨0, fun _ => [], congrArg _ Generator.add_zero_nil.symm,
      fun _ h => nomatch h⟩
  | d :: l, g, hl, hnd, hg => by
    obtain ⟨⟨hd, hd', hgen⟩, hl⟩ := List.forall_mem_cons.1 hl
    obtain ⟨hdl, hnd⟩ := List.nodup_cons.1 hnd
    have hbind : codeOfProcedures u' (d :: l) g =
        EStateM.bind (d.code u') (fun _ => codeOfProcedures u' l) g := rfl
    rw [hbind]
    unfold EStateM.bind
    rcases d.code_reordered hal hal' hd hd' ha hgen hg with ⟨f, g', hrun⟩ | ⟨k, c, hrun, hc⟩
    · rw [hrun]
      exact .inl ⟨f, g', rfl⟩
    rw [hrun]
    have hg' : (g.add k c).registers = s := hg
    rcases codeOfProcedures_reordered hal hal' ha hl hnd hg' with
      ⟨f, g', hrest⟩ | ⟨k', b', hrest, hb'⟩
    · exact .inl ⟨f, g', hrest⟩
    · obtain ⟨b'', hb'', hall⟩ := exists_blocks_cons hdl hc hb'
      rw [Generator.add_add, ← hb''] at hrest
      exact .inr ⟨k + k', b'', hrest, hall⟩

/-- The code of a program consists of the imports and of the blocks of its procedures. -/
theorem Program.code_blocks (hal : Allocated leaves u q) :
    Ends (fun _ => True) (fun _ g => ∃ b : ProcDecl → List Line,
      g.lines.toList = prologueLines ++ q.procedures.flatMap b ∧
        ∀ d ∈ q.procedures, d.Generates u {} (b d)) (q.code u) {} := by
  unfold Program.code
  refine prologue_ends.bind ?_
  intro _ _ hrun
  subst hrun
  have hnd := hal.accepted.nodup_names.of_map _
  refine (codeOfProcedures_blocks hal (fun _ hd => hd) hnd rfl).mono ?_
  intro _ _ hrun
  obtain ⟨k, b, rfl, hb⟩ := hrun
  exact ⟨b, by simp [Generator.add], hb⟩

/-- Where code is generated for the procedures of a program, their code in the other order ends in a
fault or consists of the same blocks. -/
theorem Program.code_reordered (hal : Allocated leaves u q) (hal' : Allocated leaves' u' q')
    (hp : q.procedures.Perm q'.procedures) (ha : u.Alike u') {b : ProcDecl → List Line}
    (hb : ∀ d ∈ q.procedures, d.Generates u {} (b d)) :
    (∃ f g', q'.code u' {} = .error (.fault f) g') ∨
      ∃ (g' : Generator) (b' : ProcDecl → List Line), q'.code u' {} = .ok () g' ∧
        g'.lines.toList = prologueLines ++ q'.procedures.flatMap b' ∧
        ∀ d ∈ q.procedures, d.SameBlock (b d) (b' d) := by
  have hprologue : prologue {} = .ok () ((({} : Generator)).add 0 prologueLines) := rfl
  have hbind : q'.code u' {} =
      EStateM.bind prologue (fun _ => codeOfProcedures u' q'.procedures) {} := rfl
  rw [hbind]
  unfold EStateM.bind
  rw [hprologue]
  have hnd := hal'.accepted.nodup_names.of_map _
  have hgen : ∀ d ∈ q'.procedures, d ∈ q.procedures ∧ d ∈ q'.procedures ∧ d.Generates u {} (b d) :=
    fun d hd => ⟨hp.mem_iff.2 hd, hd, hb d (hp.mem_iff.2 hd)⟩
  rcases codeOfProcedures_reordered (g := ({} : Generator).add 0 prologueLines) hal hal' ha hgen hnd
    rfl with ⟨f, g', hrun⟩ | ⟨k, b', hrun, hb'⟩
  · exact .inl ⟨f, g', hrun⟩
  · exact .inr ⟨_, b', hrun, by simp [Generator.add], fun d hd => hb' d (hp.mem_iff.1 hd)⟩

end

/-! ## Programs -/

/-- The modules of the same procedures in two orders: after the same imports, every procedure has
the same block in both, up to a constant between the numbers of its local labels. -/
def ModulesReordered (ds ds' : List ProcDecl) (lines lines' : List Line) : Prop :=
  ∃ b b' : ProcDecl → List Line, lines = prologueLines ++ ds.flatMap b ∧
    lines' = prologueLines ++ ds'.flatMap b' ∧ ∀ d ∈ ds, d.SameBlock (b d) (b' d)

section

variable {o : Options} {t t' u : SymbolTable} {p q q' : Program} {lines : List Line}

/-- Where the last two phases succeed, they do so one after the other. -/
theorem exists_of_allocateAndGenerate (h : (allocateAndGenerate o q).run t = .ok lines u) :
    allocate o.leaves q t = .ok () u ∧ ∃ g, q.code u {} = .ok () g ∧ lines = g.lines.toList := by
  cases hr : allocate o.leaves q t with
  | error f u' =>
    rw [allocateAndGenerate_of_error hr] at h
    cases h
  | ok _ u' =>
    rw [allocateAndGenerate_of_ok hr] at h
    cases hc : q.code u' {} with
    | error e g =>
      rw [hc] at h
      cases h
    | ok _ g =>
      rw [hc] at h
      cases h
      exact ⟨rfl, g, hc, rfl⟩

/-- Where the last two phases succeed in one order, they do so in the other one, unless they end in
a fault there. -/
theorem allocateAndGenerate_reordered (hA : Accepted t q) (hA' : Accepted t' q')
    (hp : q.procedures.Perm q'.procedures) (hs : t.Separate q.procedures)
    (hs' : t'.Separate q'.procedures) (ha : t.Alike t')
    (hne : ∀ f u', (allocateAndGenerate o q').run t' ≠ .error (.fault f) u')
    (h : (allocateAndGenerate o q).run t = .ok lines u) :
    ∃ lines' u', (allocateAndGenerate o q').run t' = .ok lines' u' ∧
      ModulesReordered q.procedures q'.procedures lines lines' := by
  obtain ⟨hu, g, hg, rfl⟩ := exists_of_allocateAndGenerate h
  obtain ⟨hiff, halike⟩ := allocate_reordered o.leaves hA hA' hp hs hs' ha
  obtain ⟨u', hu'⟩ := hiff.1 ⟨u, hu⟩
  have hal : Allocated o.leaves u q := (allocate_ends (A := True) hA (.inr trivial)).ok hu
  have hal' : Allocated o.leaves u' q' := (allocate_ends (A := True) hA' (.inr trivial)).ok hu'
  obtain ⟨b, hlines, hb⟩ := (Program.code_blocks hal).ok hg
  have hrun := allocateAndGenerate_of_ok (o := o) hu'
  rcases Program.code_reordered hal hal' hp (halike u u' hu hu') hb with
    ⟨f, g', hcode⟩ | ⟨g', b', hcode, hlines', hsame⟩
  · rw [hcode] at hrun
    exact absurd hrun (hne f u')
  · rw [hcode] at hrun
    exact ⟨_, u', hrun, b, b', hlines, hlines', hsame⟩

/-- Where one order of a program compiles, the other one does, unless it ends in an overflow. -/
theorem compile_ok_reordered {p' : Program} (h : p.isFresh = true) (hr : p.Reordered p')
    (hne : ∀ op, (compile o p').answer ≠ .error (.fault (.overflow op)))
    (hc : (compile o p).answer = .ok lines) : ∃ lines', (compile o p').answer = .ok lines' ∧
      ModulesReordered (compile o p).tree.procedures (compile o p').tree.procedures lines
        lines' := by
  obtain ⟨t, u, ht, hrun⟩ := compile_eq_ok_iff.1 hc
  obtain ⟨t', ht'⟩ := (accepted_iff_of_reordered o h hr).1 ⟨t, ht⟩
  obtain ⟨ha, hp, hs, hs'⟩ := buildAndCheck_reordered o h hr ht ht'
  have hA' := Accepted.of_ok ht'
  have hne' := hA'.ne_fault fun op => ne_fault_of_compile ht' (hne op)
  obtain ⟨lines', u', hrun', hmodules⟩ :=
    allocateAndGenerate_reordered (.of_ok ht) hA' hp hs hs' ha hne' hrun
  exact ⟨lines', compile_eq_ok_iff.2 ⟨t', u', ht', hrun'⟩, hmodules⟩

end

/-- The order of procedures does not matter. The first two phases accept a program exactly if they
accept it in another order, and make the same procedures of it. The third phase succeeds in both
orders or in none, and gives every procedure the same parameters, places, local variables and frame.
Where no sum overflows, both orders compile or none does, and every procedure has the same block in
both modules, up to a constant between the numbers of its local labels. -/
theorem compile_reordered (o : Options) (p p' : Program) (h : p.isFresh = true)
    (hr : p.Reordered p') :
    ((∃ t, (buildAndCheck o p).answer = .ok t) ↔ ∃ t', (buildAndCheck o p').answer = .ok t') ∧
    (∀ t t', (buildAndCheck o p).answer = .ok t → (buildAndCheck o p').answer = .ok t' →
      (buildAndCheck o p).tree.procedures.Perm (buildAndCheck o p').tree.procedures ∧
      ((∃ u, (allocate o.leaves (buildAndCheck o p).tree).run t = .ok () u) ↔
        ∃ u', (allocate o.leaves (buildAndCheck o p').tree).run t' = .ok () u') ∧
      ∀ u u', (allocate o.leaves (buildAndCheck o p).tree).run t = .ok () u →
        (allocate o.leaves (buildAndCheck o p').tree).run t' = .ok () u' → u.Alike u') ∧
    ((∀ op, (compile o p).answer ≠ .error (.fault (.overflow op))) →
      (∀ op, (compile o p').answer ≠ .error (.fault (.overflow op))) →
      ((∃ lines, (compile o p).answer = .ok lines) ↔
        ∃ lines', (compile o p').answer = .ok lines') ∧
      ∀ lines lines', (compile o p).answer = .ok lines → (compile o p').answer = .ok lines' →
        ModulesReordered (compile o p).tree.procedures (compile o p').tree.procedures lines
          lines') := by
  refine ⟨accepted_iff_of_reordered o h hr, fun t t' ht ht' => ?_, fun hne hne' => ⟨⟨?_, ?_⟩, ?_⟩⟩
  · obtain ⟨ha, hp, hs, hs'⟩ := buildAndCheck_reordered o h hr ht ht'
    exact ⟨hp, allocate_reordered o.leaves (.of_ok ht) (.of_ok ht') hp hs hs' ha⟩
  · rintro ⟨lines, hc⟩
    obtain ⟨lines', hc', -⟩ := compile_ok_reordered h hr hne' hc
    exact ⟨lines', hc'⟩
  · rintro ⟨lines', hc'⟩
    obtain ⟨lines, hc, -⟩ := compile_ok_reordered (hr.isFresh h) hr.symm hne hc'
    exact ⟨lines, hc⟩
  · intro lines lines' hc hc'
    obtain ⟨lines₁, hc₁, hmodules⟩ := compile_ok_reordered h hr hne' hc
    rw [hc', Except.ok.injEq] at hc₁
    exact hc₁ ▸ hmodules

section
open Build

/-- A procedure that stores `zero` in `r` if `n` is zero, and leaves other numbers to another
procedure. -/
def parityProcedure (name other : String) (zero : Word) : ProcDecl where
  name := name
  parameters := [param "n" intType, refParam "r" intType]
  body := [
    ifElse (binary (.compare .equ) (var (named "n")) (int 0)) (assign (named "r") (int zero))
      (call other [binary (.arith .sub) (var (named "n")) (int 1), var (named "r")])]

/-- Two procedures that call each other, one forward and the other one back. -/
def parityProcedures : List ProcDecl :=
  [parityProcedure "even" "odd" 1, parityProcedure "odd" "even" 0]

/-- A program of the given procedures that asks whether seven is even. -/
def parity (ds : List ProcDecl) : Program := program (ds.map .procedure ++ [
  procDecl "main" [] [varDecl "r" intType] [
    call "even" [int 7, var (named "r")],
    call "printi" [var (named "r")]]])

theorem compile_reordered_parity : (parity parityProcedures).isFresh = true ∧
    (parity parityProcedures).Reordered (parity parityProcedures.reverse) ∧
    (∃ t t' u u', (buildAndCheck {} (parity parityProcedures)).answer = .ok t ∧
      (buildAndCheck {} (parity parityProcedures.reverse)).answer = .ok t' ∧
      (allocate false (buildAndCheck {} (parity parityProcedures)).tree).run t = .ok () u ∧
      (allocate false (buildAndCheck {} (parity parityProcedures.reverse)).tree).run t' =
        .ok () u' ∧
      u.Alike u') ∧
    ∃ lines lines', (compile {} (parity parityProcedures)).answer = .ok lines ∧
      (compile {} (parity parityProcedures.reverse)).answer = .ok lines' ∧ lines ≠ lines' ∧
      ModulesReordered (compile {} (parity parityProcedures)).tree.procedures
        (compile {} (parity parityProcedures.reverse)).tree.procedures lines lines' := by
  have hfresh : (parity parityProcedures).isFresh = true := by decide +kernel
  have hr : (parity parityProcedures).Reordered (parity parityProcedures.reverse) :=
    ⟨rfl, .of_perm (List.reverse_perm _).symm _⟩
  obtain ⟨-, htables, hmodules⟩ := compile_reordered {} _ _ hfresh hr
  have hdiffer : (compile {} (parity parityProcedures)).answer.toOption ≠
      (compile {} (parity parityProcedures.reverse)).answer.toOption := by decide +kernel
  obtain ⟨lines, hc⟩ :=
    exists_ok_of_isSome (x := (compile {} (parity parityProcedures)).answer) (by decide +kernel)
  obtain ⟨lines', hc'⟩ := exists_ok_of_isSome
    (x := (compile {} (parity parityProcedures.reverse)).answer) (by decide +kernel)
  obtain ⟨t, u, ht, hrun⟩ := compile_eq_ok_iff.1 hc
  obtain ⟨t', u', ht', hrun'⟩ := compile_eq_ok_iff.1 hc'
  have hu := (exists_of_allocateAndGenerate hrun).1
  have hu' := (exists_of_allocateAndGenerate hrun').1
  rw [hc, hc'] at hdiffer hmodules
  refine ⟨hfresh, hr, ⟨t, t', u, u', ht, ht', hu, hu', (htables t t' ht ht').2.2 u u' hu hu'⟩,
    lines, lines', hc, hc', fun he => hdiffer (congrArg some he), ?_⟩
  exact (hmodules nofun nofun).2 lines lines' rfl rfl

end

end Spl
