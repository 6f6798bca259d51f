import Spl.Proofs.Compile.Correctness
import Spl.Proofs.Compile.Symbols
import Spl.Proofs.Machine.Linkage
import Spl.Tree.Equality

/-!
# Linkage in generated code

Every procedure of a generated module has its block, and every run through a block that reaches the
return brings back the stack pointer, the frame pointer and the return address.

* `ProcDecl.CodeOf.exists_block`: the blocks of a module.
* `Allocated.exists_run`: the runs through blocks with leaf frames.
* `blocks_restore_linkage`: the registers at the return.
-/

namespace Spl

open SymbolTable Machine

variable {t : SymbolTable} {p : Program} {leaves : Bool} {d : ProcDecl} {lines : List Line}

/-- The code of a procedure stands somewhere in the code of all procedures. -/
theorem ProcDecl.CodeOf.exists_append {s : RegisterStack} {n : Nat} {ds : List ProcDecl}
    {code : List Line} (h : ProcDecl.CodeOf t s n ds code) : ∀ d ∈ ds,
      ∃ (n : Nat) (before c after : List Line), code = before ++ (c ++ after) ∧ d.Code t s n c := by
  induction h with
  | nil => exact fun _ hd => nomatch hd
  | @cons n d ds c cs hc _ ih =>
    intro d' hd'
    rcases List.mem_cons.1 hd' with rfl | hd'
    · exact ⟨n, [], c, cs, rfl, hc⟩
    · obtain ⟨n', before, c', after, rfl, hc'⟩ := ih d' hd'
      exact ⟨n', c ++ before, c', after, (List.append_assoc ..).symm, hc'⟩

/-- Every procedure has its block in the module. -/
theorem ProcDecl.CodeOf.exists_block {s : RegisterStack} {n : Nat} {ds : List ProcDecl}
    {code front : List Line} (h : ProcDecl.CodeOf t s n ds code) (hd : d ∈ ds) :
    Nonempty (Block t d (front ++ code)) := by
  obtain ⟨n', before, c, after, rfl, hc⟩ := h.exists_append d hd
  cases hc with
  | @mk P size entry body exit hP hsize hentry hbody hexit =>
    exact ⟨{
      procedure := P
      size, entry, body, exit, after
      before := front ++ (before ++ [plain .blank, plain (.exportName d.name)])
      procedure_eq := hP
      frameSize := hsize
      entryCode := hentry
      bodyCode := ⟨s, n', hbody⟩
      exitCode := hexit
      lines_eq := by simp }⟩

theorem Call.ArgumentsCode.eq_nil {a : Addressing} {s : RegisterStack} {n index : Nat}
    {vs : List Variable} {code : List Line} (h : Call.ArgumentsCode t a s n index [] vs code) :
    code = [] := by
  cases h
  rfl

/-- A procedure with a leaf frame calls nothing. -/
theorem Placed.calls_eq_nil {P : Procedure} (hp : Placed leaves t d P)
    (hl : P.layout.isLeaf = true) : d.calls = [] := by
  rw [hp.layout] at hl
  exact List.isEmpty_iff.1 (Bool.and_eq_true_iff.1 hl).2

/-- The procedure of a block with a leaf frame gets to its return if its body finishes. -/
theorem Allocated.exists_run (h : Allocated leaves t p) (hd : d ∈ p.procedures)
    (B : Block t d lines) (hL : Linked lines) (hl : B.procedure.layout.isLeaf = true)
    {div : Word → Word → Option Word} {σ₀ : State} {m : Memory}
    (hexec : Stmt.ExecOf div ⟨t, B.procedure.localScope, σ₀.read .stackPointer⟩ σ₀.memory d.body
      (.finished m)) : ∃ σ, B.Run div σ₀ σ ∧ σ.memory = m := by
  obtain ⟨P, hP, hp⟩ := h.placed d hd
  obtain rfl : P = B.procedure := Option.some.inj (hP.procedure.symm.trans B.procedure_eq)
  have hready : Ready t { scope := B.procedure.localScope, base := .stackPointer, bias := 0 } :=
    h.ready hP hp rfl
  exact B.exists_run hL hl hready.fits (h.accepted.bodies d hd _ hP) hexec

/-! ## Modules -/

/-- The phases of a compilation that succeeds. -/
theorem exists_of_compile_eq_ok {o : Options} (h : (compile o p).answer = .ok lines) :
    ∃ t t', (buildAndCheck o p).answer = .ok t ∧
      (allocate o.leaves (buildAndCheck o p).tree).run t = .ok () t' ∧
      generate t' (buildAndCheck o p).tree = .ok lines := by
  obtain ⟨t, t', ht, hr⟩ := compile_eq_ok_iff.1 h
  have hends : Ends (fun _ => True) (fun code t₁ =>
      (allocate o.leaves (buildAndCheck o p).tree).run t = .ok () t₁ ∧
        generate t₁ (buildAndCheck o p).tree = .ok code)
      (allocateAndGenerate o (buildAndCheck o p).tree) t := by
    unfold allocateAndGenerate
    have hrun := Ends.of_run (allocate o.leaves (buildAndCheck o p).tree) t
    refine (hrun.adaptExcept (f := Failure.fault) fun _ _ => trivial).bind ?_
    intro _ t₁ hal
    refine .get_bind ?_
    cases hg : generate t₁ (buildAndCheck o p).tree with
    | ok code => exact .pure ⟨hal, hg⟩
    | error e => exact .throw trivial
  exact ⟨t, t', ht, hends.ok hr⟩

/-- The table of a program with its frames. -/
def framedTable (o : Options) (p : Program) : SymbolTable :=
  match (buildAndCheck o p).answer with
  | .error _ => ⟨[]⟩
  | .ok t =>
    match (allocate o.leaves (buildAndCheck o p).tree).run t with
    | .ok _ t' | .error _ t' => t'

theorem framedTable_eq {o : Options} {t' : SymbolTable} (ht : (buildAndCheck o p).answer = .ok t)
    (hal : (allocate o.leaves (buildAndCheck o p).tree).run t = .ok () t') :
    framedTable o p = t' := by
  simp only [framedTable, ht, hal]

/-- In the module of a program, every procedure has its block. A run through a block that reaches
the return finds the stack pointer, the frame pointer and the return address there as they were at
the label. For a leaf frame nothing is assumed of stores and calls: there are no linkage words, and
the code neither calls nor writes the two registers. -/
theorem blocks_restore_linkage (div : Word → Word → Option Word) (o : Options) (p : Program)
    {t t' : SymbolTable} {lines : List Line} (ht : (buildAndCheck o p).answer = .ok t)
    (hal : (allocate o.leaves (buildAndCheck o p).tree).run t = .ok () t')
    (hg : generate t' (buildAndCheck o p).tree = .ok lines) {d : ProcDecl}
    (hd : d ∈ (buildAndCheck o p).tree.procedures) :
    Nonempty (Block t' d lines) ∧ ∀ B : Block t' d lines,
      (B.OwnLabels → ∀ σ₀ σ, B.Run div σ₀ σ →
        σ.read .stackPointer = σ₀.read .stackPointer ∧
        σ.read .framePointer = σ₀.read .framePointer ∧
        σ.read .returnAddress = σ₀.read .returnAddress) ∧
      (B.procedure.layout.isLeaf = true →
        (∀ sp, B.linkageWords sp = []) ∧ ∀ line ∈ B.code, line.inst.KeepsLinkage) := by
  have halloc : Allocated o.leaves t' (buildAndCheck o p).tree :=
    (allocate_ends (A := True) (Accepted.of_ok ht) (.inr trivial)).ok hal
  have hgen := generate_meets (A := True) halloc (.inr trivial)
  rw [hg] at hgen
  obtain ⟨code, hcode, rfl⟩ := hgen
  refine ⟨hcode.exists_block hd, fun B => ?_⟩
  obtain ⟨P, hP, hp⟩ := halloc.placed d hd
  obtain rfl : P = B.procedure := Option.some.inj (hP.procedure.symm.trans B.procedure_eq)
  have hcalls : B.procedure.layout.isLeaf = true → d.calls = [] := hp.calls_eq_nil
  refine ⟨fun hL σ₀ σ hr => hr.restores hL hcalls ?_, fun hl => ⟨fun sp => ?_, ?_⟩⟩
  · exact fun old ret hlink => hp.linkage_ne hP B.frameSize hlink
  · exact FrameLayout.linkageWords_of_isLeaf hl
  · exact Block.leaf_code (hcalls hl) hl

/-- The phases of a compilation that gives every label its own line. -/
theorem exists_linked {o : Options}
    (h : ((compile o p).answer.toOption.any fun lines =>
      (labelsIn lines).Nodup ∧ indexErrorRoutine ∉ labelsIn lines) = true) :
    ∃ t t' lines, (buildAndCheck o p).answer = .ok t ∧
      (allocate o.leaves (buildAndCheck o p).tree).run t = .ok () t' ∧
      generate t' (buildAndCheck o p).tree = .ok lines ∧ Linked lines := by
  obtain ⟨lines, hlines, hlabels⟩ := (Option.any_eq_true _ _).1 h
  obtain ⟨t, t', ht, hal, hg⟩ := exists_of_compile_eq_ok (eq_ok_of_toOption hlines)
  exact ⟨t, t', lines, ht, hal, hg, (of_decide_eq_true hlabels).1, (of_decide_eq_true hlabels).2⟩

section
open Build

/-- A program whose main procedure only calls. -/
def relay : Program := program [procDecl "pass" [] [] [], procDecl "main" [] [] [call "pass" []]]

end

/-- The main procedure of `relay` after the first phases. -/
def relayMain : ProcDecl :=
  (buildAndCheck { leaves := true } relay).tree.procedures.getLastD { name := "main" }

theorem relayMain_mem : relayMain ∈ (buildAndCheck { leaves := true } relay).tree.procedures := by
  have hne : (buildAndCheck { leaves := true } relay).tree.procedures ≠ [] := by decide +kernel
  unfold relayMain
  rw [List.getLastD_eq_getLast?, List.getLast?_eq_some_getLast hne]
  exact List.getLast_mem hne

theorem checkedFill_mem :
    checkedFill ∈ (buildAndCheck { leaves := true } squares).tree.procedures := by
  have hne : (buildAndCheck { leaves := true } squares).tree.procedures ≠ [] := by decide +kernel
  unfold checkedFill
  rw [List.headD_eq_head?_getD, List.head?_eq_some_head hne]
  exact List.head_mem hne

/-- The body of `relayMain` is its call. -/
theorem calls_of_relayMain (B : Block t relayMain lines) :
    ∀ line ∈ B.body, ∃ name, line.inst = .call name := by
  have hbody : relayMain.body = [Build.call "pass" []] := by decide +kernel
  obtain ⟨s, n, hcode⟩ := B.bodyCode
  rw [hbody] at hcode
  generalize B.body = code at hcode ⊢
  cases hcode with
  | cons hcall hnil =>
    cases hnil
    cases hcall with
    | call _ harguments =>
      rw [harguments.eq_nil]
      exact List.forall_mem_singleton.2 ⟨_, rfl⟩

theorem blocks_restore_linkage_squares :
    (∃ t t' lines, (buildAndCheck { leaves := true } squares).answer = .ok t ∧
      (allocate true (buildAndCheck { leaves := true } squares).tree).run t = .ok () t' ∧
      generate t' (buildAndCheck { leaves := true } squares).tree = .ok lines ∧
      checkedFill ∈ (buildAndCheck { leaves := true } squares).tree.procedures ∧
      Nonempty (Block t' checkedFill lines) ∧ ∀ B : Block t' checkedFill lines,
        (B.OwnLabels ∧ B.procedure.layout.isLeaf = true ∧
          ∃ σ₀ σ, B.Run (fun x y => if y = 0 then none else some (x / y)) σ₀ σ) ∧
        (B.OwnLabels → ∀ σ₀ σ, B.Run (fun x y => if y = 0 then none else some (x / y)) σ₀ σ →
          σ.read .stackPointer = σ₀.read .stackPointer ∧
          σ.read .framePointer = σ₀.read .framePointer ∧
          σ.read .returnAddress = σ₀.read .returnAddress) ∧
        (B.procedure.layout.isLeaf = true →
          (∀ sp, B.linkageWords sp = []) ∧ ∀ line ∈ B.code, line.inst.KeepsLinkage)) ∧
    ∃ t t' lines, (buildAndCheck { leaves := true } relay).answer = .ok t ∧
      (allocate true (buildAndCheck { leaves := true } relay).tree).run t = .ok () t' ∧
      generate t' (buildAndCheck { leaves := true } relay).tree = .ok lines ∧
      relayMain ∈ (buildAndCheck { leaves := true } relay).tree.procedures ∧
      Nonempty (Block t' relayMain lines) ∧ ∀ B : Block t' relayMain lines,
        (B.OwnLabels ∧ (∀ sp, (B.linkageWords sp).length = 2) ∧
          ∀ σ₀, ∃ σ, B.Run (fun x y => if y = 0 then none else some (x / y)) σ₀ σ) ∧
        (B.OwnLabels → ∀ σ₀ σ, B.Run (fun x y => if y = 0 then none else some (x / y)) σ₀ σ →
          σ.read .stackPointer = σ₀.read .stackPointer ∧
          σ.read .framePointer = σ₀.read .framePointer ∧
          σ.read .returnAddress = σ₀.read .returnAddress) ∧
        (B.procedure.layout.isLeaf = true →
          (∀ sp, B.linkageWords sp = []) ∧ ∀ line ∈ B.code, line.inst.KeepsLinkage) := by
  constructor
  · obtain ⟨t, t', lines, ht, hal, hg, hL⟩ :=
      exists_linked (p := squares) (o := { leaves := true }) (by decide +kernel)
    have halloc : Allocated true t' (buildAndCheck { leaves := true } squares).tree :=
      (allocate_ends (A := True) (Accepted.of_ok ht) (.inr trivial)).ok hal
    have h := blocks_restore_linkage (fun x y => if y = 0 then none else some (x / y))
      { leaves := true } squares ht hal hg checkedFill_mem
    refine ⟨t, t', lines, ht, hal, hg, checkedFill_mem, h.1, fun B =>
      ⟨⟨B.ownLabels_of_nodup hL.nodup, ?_⟩, h.2 B⟩⟩
    -- where all words are 0, the array has nothing to fill
    obtain rfl := framedTable_eq (o := { leaves := true }) ht hal
    have hfill : ((framedTable { leaves := true } squares).procedure? checkedFill.name).map
        (fun P => (P.localScope, P.layout.isLeaf)) = some (⟨11⟩, true) := by decide +kernel
    rw [B.procedure_eq, Option.map_some, Option.some.injEq, Prod.mk.injEq] at hfill
    obtain ⟨hscope, hl⟩ := hfill
    have hexec : Stmt.ExecOf (fun x y => if y = 0 then none else some (x / y))
        ⟨framedTable { leaves := true } squares, ⟨11⟩, 0⟩ (fun _ => 0) checkedFill.body
        (.finished (Memory.set (fun _ => 0) (-4) 0)) := by
      refine .cons (.assign (eq_ok_of_toOption ?_) (eq_ok_of_toOption ?_))
        (.cons (.whileDone (eq_ok_of_toOption ?_)) .nil)
      all_goals decide +kernel
    rw [← hscope] at hexec
    have hrun : ∃ σ, B.Run _ ⟨fun _ => 0, fun _ => 0⟩ σ ∧ σ.memory = _ :=
      halloc.exists_run checkedFill_mem B hL hl hexec
    obtain ⟨σ, hr, -⟩ := hrun
    exact ⟨hl, _, σ, hr⟩
  · obtain ⟨t, t', lines, ht, hal, hg, hL⟩ :=
      exists_linked (p := relay) (o := { leaves := true }) (by decide +kernel)
    have halloc : Allocated true t' (buildAndCheck { leaves := true } relay).tree :=
      (allocate_ends (A := True) (Accepted.of_ok ht) (.inr trivial)).ok hal
    obtain ⟨P, hP, hp⟩ := halloc.placed relayMain relayMain_mem
    have h := blocks_restore_linkage (fun x y => if y = 0 then none else some (x / y))
      { leaves := true } relay ht hal hg relayMain_mem
    refine ⟨t, t', lines, ht, hal, hg, relayMain_mem, h.1, fun B =>
      ⟨⟨B.ownLabels_of_nodup hL.nodup, ?_, ?_⟩, h.2 B⟩⟩
    · obtain rfl := framedTable_eq (o := { leaves := true }) ht hal
      have hlinkage : ((framedTable { leaves := true } relay).procedure? relayMain.name).bind
          (fun P => (linkageOffsets P.layout).toOption) = some (4, -8) := by decide +kernel
      rw [B.procedure_eq, Option.bind_some] at hlinkage
      intro sp
      rw [Block.linkageWords, FrameLayout.linkageWords_eq (eq_ok_of_toOption hlinkage)]
      rfl
    · obtain rfl : P = B.procedure := Option.some.inj (hP.procedure.symm.trans B.procedure_eq)
      exact B.exists_run_of_calls hL (fun old ret hlink => hp.linkage_ne hP B.frameSize hlink)
        (calls_of_relayMain B)

end Spl
