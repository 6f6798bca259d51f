import Spl.Proofs.Compile.Linkage
import Spl.Tree.Equality

/-!
# Call sites

The allocation reserves the outgoing area of a procedure for the calls inside its body, and the code
of the body makes calls and stores their arguments. Both see the same calls: the body is made of one
piece of code for each call, in source order, and of lines in between that neither call nor store
from the stack pointer. A piece stores each argument once, and all stores lie in the outgoing area.

* `calledIn`, `storedIn`: the calls and the stores of code.
* `CallsPlaced`, `Stmt.Code.callsPlaced`: the pieces of a body.
* `Call.Passes`, `Allocated.passes`: what the piece of a call stores.
* `calls_agree`: the calls of a procedure and of its block.
-/

namespace Spl

open SymbolTable

/-- The procedure that an instruction calls. -/
def Inst.called? : Inst → Option String
  | .call target => some target
  | .importName _ | .exportName _ | .code | .align _ | .label _ | .blank | .alu .. | .load ..
  | .store .. | .branch .. | .jump _ | .jumpRegister _ => none

/-- The base register and the displacement of the word that an instruction stores. -/
def Inst.stored? : Inst → Option (Reg × Word)
  | .store _ base offset => some (base, offset)
  | .importName _ | .exportName _ | .code | .align _ | .label _ | .blank | .alu .. | .load ..
  | .branch .. | .jump _ | .jumpRegister _ | .call _ => none

/-- The procedures that code calls, in order. -/
def calledIn (code : List Line) : List String := code.filterMap (·.inst.called?)

/-- The words that code stores, in order. -/
def storedIn (code : List Line) : List (Reg × Word) := code.filterMap (·.inst.stored?)

section
variable {c c' : List Line}

@[simp]
theorem calledIn_append : calledIn (c ++ c') = calledIn c ++ calledIn c' := List.filterMap_append

@[simp]
theorem storedIn_append : storedIn (c ++ c') = storedIn c ++ storedIn c' := List.filterMap_append

@[simp]
theorem calledIn_nil : calledIn [] = [] := rfl

@[simp]
theorem storedIn_nil : storedIn [] = [] := rfl

@[simp]
theorem calledIn_cons (l : Line) : calledIn (l :: c) = l.inst.called?.toList ++ calledIn c := by
  unfold calledIn
  cases h : l.inst.called? <;> simp [h]

@[simp]
theorem storedIn_cons (l : Line) : storedIn (l :: c) = l.inst.stored?.toList ++ storedIn c := by
  unfold storedIn
  cases h : l.inst.stored? <;> simp [h]

end

/-- Code that calls nothing and stores nothing. -/
structure Silent (code : List Line) : Prop where
  called : calledIn code = []
  stored : storedIn code = []

/-- Code that calls nothing and stores nothing from the stack pointer. -/
structure Between (code : List Line) : Prop where
  called : calledIn code = []
  stored : ∀ x ∈ storedIn code, x.1 ≠ .stackPointer

section
variable {c c' : List Line}

theorem Silent.append (h : Silent c) (h' : Silent c') : Silent (c ++ c') :=
  ⟨by simp [h.called, h'.called], by simp [h.stored, h'.stored]⟩

theorem Silent.between (h : Silent c) : Between c := ⟨h.called, by simp [h.stored]⟩

theorem Between.append (h : Between c) (h' : Between c') : Between (c ++ c') where
  called := by simp [h.called, h'.called]
  stored x hx := by
    rw [storedIn_append] at hx
    exact (List.mem_append.1 hx).elim (h.stored x) (h'.stored x)

end

/-- The code is made of a piece for each of the calls, in order, and of lines between the pieces. -/
inductive CallsPlaced (Piece : Call → List Line → Prop) : List Call → List Line → Prop
  | rest {code : List Line} : Between code → CallsPlaced Piece [] code
  | cons {c : Call} {cs : List Call} {before piece after : List Line} :
      Between before → Piece c piece → CallsPlaced Piece cs after →
      CallsPlaced Piece (c :: cs) (before ++ (piece ++ after))

namespace CallsPlaced

variable {Piece Piece' : Call → List Line → Prop} {cs cs' : List Call} {code code' : List Line}

theorem between_append (hb : Between code) (h : CallsPlaced Piece cs code') :
    CallsPlaced Piece cs (code ++ code') := by
  cases h with
  | rest hb' => exact .rest (hb.append hb')
  | cons hb' hp h =>
    rw [← List.append_assoc]
    exact .cons (hb.append hb') hp h

theorem append (h : CallsPlaced Piece cs code) (h' : CallsPlaced Piece cs' code') :
    CallsPlaced Piece (cs ++ cs') (code ++ code') := by
  induction h with
  | rest hb => exact between_append hb h'
  | cons hb hp _ ih =>
    rw [List.append_assoc, List.append_assoc]
    exact .cons hb hp ih

theorem append_between (h : CallsPlaced Piece cs code) (hb : Between code') :
    CallsPlaced Piece cs (code ++ code') := by
  rw [← List.append_nil cs]
  exact h.append (.rest hb)

theorem single {c : Call} (hp : Piece c code) : CallsPlaced Piece [c] code := by
  have hrest : CallsPlaced Piece [] [] := .rest ⟨rfl, nofun⟩
  have h : CallsPlaced Piece [c] ([] ++ (code ++ [])) := .cons ⟨rfl, nofun⟩ hp hrest
  rwa [List.nil_append, List.append_nil] at h

/-- Pieces may be described in another way. -/
theorem imp (h : CallsPlaced Piece cs code)
    (hp : ∀ c ∈ cs, ∀ piece, Piece c piece → Piece' c piece) : CallsPlaced Piece' cs code := by
  induction h with
  | rest hb => exact .rest hb
  | cons hb hpiece _ ih =>
    exact .cons hb (hp _ (.head _) _ hpiece) (ih fun c hc => hp c (.tail _ hc))

/-- The code calls what its pieces call. -/
theorem calledIn_eq (h : CallsPlaced Piece cs code)
    (hp : ∀ c ∈ cs, ∀ piece, Piece c piece → calledIn piece = [c.procedure]) :
    calledIn code = cs.map (·.procedure) := by
  induction h with
  | rest hb => exact hb.called
  | cons hb hpiece _ ih =>
    rw [calledIn_append, calledIn_append, hb.called, hp _ (.head _) _ hpiece,
      ih fun c hc => hp c (.tail _ hc)]
    rfl

end CallsPlaced

/-! ## The pieces of a body -/

section
variable {t : SymbolTable} {a : Addressing} {s : RegisterStack} {n : Nat} {code : List Line}

mutual

theorem Designator.AddressCode.silent : ∀ {s : RegisterStack} {n : Nat} {d : Designator}
    {code : List Line}, d.AddressCode t a s n code → Silent code
  | _, _, _, _, .named (v := v) _ _ _ => by
    cases hr : v.isReference
    · exact ⟨rfl, rfl⟩
    · exact ⟨rfl, rfl⟩
  | _, _, _, _, .element _ _ _ _ hac hic => (hac.silent.append hic.silent).append ⟨rfl, rfl⟩
  | _, _, _, _, .field _ _ hrc => by
    refine hrc.silent.append ?_
    split
    · exact ⟨rfl, rfl⟩
    · exact ⟨rfl, rfl⟩

theorem Expr.ValueCode.silent : ∀ {s : RegisterStack} {n : Nat} {e : Expr} {code : List Line},
    e.ValueCode t a s n code → Silent code
  | _, _, _, _, .literal => ⟨rfl, rfl⟩
  | _, _, _, _, .unary he => he.silent.append ⟨rfl, rfl⟩
  | _, _, _, _, .compare _ hl hr => (hl.silent.append hr.silent).append ⟨rfl, rfl⟩
  | _, _, _, _, .arith _ hl hr => (hl.silent.append hr.silent).append ⟨rfl, rfl⟩
  | _, _, _, _, .designator hd => hd.silent.append ⟨rfl, rfl⟩

end

theorem Expr.BranchCode.silent {label : String} {e : Expr} (h : e.BranchCode t a label s n code) :
    Silent code := by
  cases h with
  | compare _ hl hr => exact (hl.silent.append hr.silent).append ⟨rfl, rfl⟩
  | value _ he => exact he.silent.append ⟨rfl, rfl⟩

/-- The current register is not the stack pointer. -/
theorem RegisterStack.current_ne_stackPointer (s : RegisterStack) :
    s.current ≠ .stackPointer := by
  intro h
  have hfree := s.current_isFree
  rw [h] at hfree
  cases hfree

theorem Stmt.calls_of_isEmpty {st : Stmt} (h : st.isEmpty = true) : st.calls = [] := by
  cases st with
  | empty => exact Stmt.calls.eq_def _
  | assign | ifElse | whileDo | call | compound => cases h

mutual

/-- The code of a statement has a piece for each call inside it: the code of that call. -/
theorem Stmt.Code.callsPlaced : ∀ {s : RegisterStack} {n : Nat} {st : Stmt} {code : List Line},
    st.Code t a s n code →
      CallsPlaced (fun c piece => ∃ n, Stmt.Code t a s n (.call c) piece) st.calls code
  | s, _, _, _, .assign _ hd he => by
    rw [Stmt.calls]
    refine .rest ((hd.silent.append he.silent).between.append ⟨rfl, fun x hx => ?_⟩)
    obtain rfl := List.mem_singleton.1 hx
    exact s.current_ne_stackPointer
  | _, _, _, _, .ifThen h₂ he h₁ => by
    rw [Stmt.calls, Stmt.calls_of_isEmpty h₂, List.append_nil]
    exact (h₁.callsPlaced.between_append he.silent.between).append_between ⟨rfl, nofun⟩
  | _, _, _, _, .ifElse _ he h₁ h₂ _ => by
    rw [Stmt.calls]
    refine .append_between ?_ ⟨rfl, nofun⟩
    refine .append (.append_between ?_ ⟨rfl, nofun⟩) h₂.callsPlaced
    exact h₁.callsPlaced.between_append he.silent.between
  | _, _, _, _, .whileDo he h₁ => by
    rw [Stmt.calls]
    refine .append_between ?_ ⟨rfl, nofun⟩
    exact h₁.callsPlaced.between_append (.append (c := [_]) ⟨rfl, nofun⟩ he.silent.between)
  | _, _, _, _, .call hcallee hargs => by
    rw [Stmt.calls]
    exact .single ⟨_, .call hcallee hargs⟩
  | _, _, _, _, .compound h => by
    rw [Stmt.calls]
    exact h.callsPlaced
  | _, _, _, _, .empty => by
    rw [Stmt.calls]
    exact .rest ⟨rfl, nofun⟩

theorem Stmt.CodeOf.callsPlaced : ∀ {s : RegisterStack} {n : Nat} {ss : List Stmt}
    {code : List Line}, Stmt.CodeOf t a s n ss code →
      CallsPlaced (fun c piece => ∃ n, Stmt.Code t a s n (.call c) piece) (Stmt.callsOf ss) code
  | _, _, _, _, .nil => by
    rw [Stmt.callsOf]
    exact .rest ⟨rfl, nofun⟩
  | _, _, _, _, .cons h hs => by
    rw [Stmt.callsOf]
    exact h.callsPlaced.append hs.callsPlaced

end

/-- The code of arguments calls nothing and stores one word for each parameter, at its offset. -/
theorem Call.ArgumentsCode.stores {index : Nat} {es : List Expr} {vs : List Variable}
    (h : Call.ArgumentsCode t a s n index es vs code) : es.length = vs.length ∧
      calledIn code = [] ∧ ∃ offsets : List Word,
        vs.map (·.offset) = offsets.map some ∧ storedIn code = offsets.map (.stackPointer, ·) := by
  induction h with
  | nil => exact ⟨rfl, rfl, [], rfl, rfl⟩
  | @value n index e es v vs offset ec code _ ho he _ ih =>
    obtain ⟨hlen, hcalled, offsets, hoffsets, hstored⟩ := ih
    refine ⟨by simp [hlen], ?_, offset :: offsets, by simp [ho, hoffsets], ?_⟩
    · simp [he.silent.called, hcalled, noted, Inst.called?]
    · simp [he.silent.stored, hstored, noted, Inst.stored?]
  | @reference n index p d slot es v vs offset dc code _ ho hd _ ih =>
    obtain ⟨hlen, hcalled, offsets, hoffsets, hstored⟩ := ih
    refine ⟨by simp [hlen], ?_, offset :: offsets, by simp [ho, hoffsets], ?_⟩
    · simp [hd.silent.called, hcalled, noted, Inst.called?]
    · simp [hd.silent.stored, hstored, noted, Inst.stored?]

end

/-! ## What a call stores -/

/-- The code of a call in a procedure with the given frame stores one word for each argument, from
the stack pointer at different offsets. The offsets are all those of words in the arguments of the
called procedure, and the words lie in the outgoing area of the frame, below the saved return
address and the saved frame pointer. -/
structure Call.Passes (t : SymbolTable) (layout : FrameLayout) (size : Word) (c : Call)
    (piece : List Line) (callee : Procedure) (offsets : List Word) : Prop where
  procedure : t.procedure? c.procedure = some callee
  called : calledIn piece = [c.procedure]
  stored : storedIn piece = offsets.map (.stackPointer, ·)
  length : offsets.length = c.arguments.length
  nodup : offsets.Nodup
  covers : ∃ bytes, callee.argumentBytes = .ok bytes ∧
    ∀ w : Word, w ∈ offsets ↔ 0 ≤ w.toInt ∧ w.toInt < bytes.toInt ∧ 4 ∣ w.toInt
  within : ∃ area, layout.outgoingArea = some area ∧
    ∀ w ∈ offsets, 0 ≤ w.toInt ∧ w.toInt + 4 ≤ area.toInt
  linkage : ∃ framePointer returnAddress, linkageOffsets layout = .ok (framePointer, returnAddress) ∧
    ∀ w ∈ offsets, w.toInt + 4 ≤ framePointer.toInt ∧
      w.toInt + 4 ≤ size.toInt + returnAddress.toInt

/-- The offsets of so many words in a row. -/
def wordOffsets (n : Nat) : List Word := (List.range n).map fun i => Int32.ofNat (4 * i)

section
variable {n : Nat} {w : Word}

theorem mem_wordOffsets (hn : 4 * n ≤ Word.maxNat) :
    w ∈ wordOffsets n ↔ 0 ≤ w.toInt ∧ w.toInt < ((4 * n : Nat) : Int) ∧ 4 ∣ w.toInt := by
  unfold wordOffsets
  rw [List.mem_map]
  constructor
  · rintro ⟨i, hi, rfl⟩
    have hi := List.mem_range.1 hi
    rw [Word.toInt_ofNat (by omega)]
    omega
  · rintro ⟨h0, hlt, i, hi⟩
    refine ⟨i.toNat, List.mem_range.2 (by omega), ?_⟩
    refine Int32.toInt_inj.1 ?_
    rw [Word.toInt_ofNat (by omega)]
    omega

theorem nodup_wordOffsets (hn : 4 * n ≤ Word.maxNat) : (wordOffsets n).Nodup := by
  refine (List.nodup_map_iff_inj_on List.nodup_range).2 fun i hi j hj heq => ?_
  have hi := List.mem_range.1 hi
  have hj := List.mem_range.1 hj
  have heq := congrArg Int32.toInt heq
  rw [Word.toInt_ofNat (by omega), Word.toInt_ofNat (by omega)] at heq
  omega

end

section
variable {leaves : Bool} {t : SymbolTable} {p : Program} {d : ProcDecl} {P : Procedure}

/-- The parameters of every procedure are placed word by word, as callers see them. -/
theorem Allocated.offset_eq (h : Allocated leaves t p) {name : String} {Q : Procedure}
    (hQ : t.procedure? name = some Q) {i : Nat} {v : Variable} (hv : Q.parameters[i]? = some v) :
    ∃ w, v.offset = some w ∧ w.toInt = 4 * (i : Int) := by
  rcases h.accepted.holds.procedure_cases hQ with ⟨b, hb, -, hps⟩ | ⟨d, hd, rfl, -⟩
  · rw [hps, Builtin.signature, List.getElem?_mapIdx] at hv
    obtain ⟨x, hx, rfl⟩ := Option.map_eq_some_iff.1 hv
    have hfew : ∀ b ∈ builtins, b.parameters.length ≤ 5 := by decide
    have hi := (List.getElem?_eq_some_iff.1 hx).1
    have hlen := hfew b hb
    have hmax : Word.maxNat = 2 ^ 31 - 1 := rfl
    exact ⟨_, rfl, Word.toInt_ofNat (by omega)⟩
  · obtain ⟨d', hd', rfl⟩ := List.mem_map.1 hd
    obtain ⟨Q', hQ', hp⟩ := h.placed d' hd'
    have hQQ := hQ'.procedure
    rw [← ProcDecl.head_name, hQ, Option.some.injEq] at hQQ
    rw [hQQ] at hv
    exact hp.signature i v hv

theorem Allocated.offsets_eq (h : Allocated leaves t p) {name : String} {Q : Procedure}
    (hQ : t.procedure? name = some Q) (hroom : 4 * Q.parameters.length ≤ Word.maxNat) :
    Q.parameters.map (·.offset) = (wordOffsets Q.parameters.length).map some := by
  refine List.ext_getElem? fun i => ?_
  unfold wordOffsets
  rw [List.getElem?_map, List.map_map, List.getElem?_map]
  cases hv : Q.parameters[i]? with
  | none =>
    rw [List.getElem?_eq_none (by rw [List.length_range]; exact List.getElem?_eq_none_iff.1 hv)]
    rfl
  | some v =>
    have hi := (List.getElem?_eq_some_iff.1 hv).1
    obtain ⟨w, hw, hvalue⟩ := h.offset_eq hQ hv
    rw [List.getElem?_range hi, Option.map_some, Option.map_some, hw, Function.comp_apply]
    refine congrArg (some ∘ some) (Int32.toInt_inj.1 ?_)
    rw [Word.toInt_ofNat (by omega), hvalue]
    omega

/-- A procedure with a call has no leaf frame. -/
theorem Placed.isLeaf_of_mem_calls (hp : Placed leaves t d P) {c : Call} (hc : c ∈ d.calls) :
    P.layout.isLeaf = false := by
  cases hl : P.layout.isLeaf with
  | false => rfl
  | true =>
    rw [hp.calls_eq_nil hl] at hc
    cases hc

theorem Allocated.passes (h : Allocated leaves t p) (hP : t.Declares d P)
    (hp : Placed leaves t d P) {size : Word} (hsize : P.layout.frameSize = .ok (some size))
    {c : Call} (hc : c ∈ d.calls) {s : RegisterStack} {n : Nat} {piece : List Line}
    (hpiece : Stmt.Code t (P.addressing size) s n (.call c) piece) :
    ∃ callee offsets, c.Passes t P.layout size piece callee offsets := by
  cases hpiece with
  | @call _ _ Q code hQ hargs =>
    obtain ⟨hlen, hcalled, offsets, hoffsets, hstored⟩ := hargs.stores
    have hlongest := le_longestCall hc
    have hroom := hp.outgoingRoom
    have hwords : 4 * Q.parameters.length ≤ Word.maxNat := by omega
    obtain rfl : offsets = wordOffsets Q.parameters.length :=
      (List.map_injective_iff.2 (fun _ _ h => Option.some.inj h)
        (hoffsets.symm.trans (h.offsets_eq hQ hwords)))
    have hmem := fun w => mem_wordOffsets (w := w) hwords
    have harea : P.layout.outgoingArea = some (Int32.ofNat (4 * d.longestCall)) := by
      rw [hp.layout]
      rfl
    have hvalue := Word.toInt_ofNat hroom
    have hin : ∀ w ∈ wordOffsets Q.parameters.length,
        0 ≤ w.toInt ∧ w.toInt + 4 ≤ (Int32.ofNat (4 * d.longestCall)).toInt := fun w hw => by
      have hw := (hmem w).1 hw
      omega
    -- the linkage words lie directly above the outgoing area
    have hleaf := hp.isLeaf_of_mem_calls hc
    obtain ⟨locals, outgoing, framePointer, returnAddress, -, ho, hfp, hra, htiles, -⟩ :=
      hp.layout_tiled hP size hleaf hsize
    obtain rfl : outgoing = _ := Option.some.inj (ho.symm.trans harea)
    obtain ⟨-, -, hra', -, hfp', -⟩ := htiles
    refine ⟨Q, wordOffsets Q.parameters.length, hQ, ?_, ?_, ?_, nodup_wordOffsets hwords,
      ⟨Int32.ofNat (4 * Q.parameters.length), ?_, fun w => ?_⟩, ⟨_, harea, hin⟩,
      ⟨framePointer, returnAddress, ?_, fun w hw => ?_⟩⟩
    · simp [hcalled, plain, Inst.called?]
    · simp [hstored, plain, Inst.stored?]
    · simp [wordOffsets, hlen]
    · have hb := h.accepted.holds.argumentBytesFrom_take hQ (Nat.le_refl _) hwords
      rwa [List.take_length] at hb
    · rw [hmem w, Word.toInt_ofNat hwords]
    · simp [linkageOffsets, hfp, hra, bind, Except.bind]
    · have hw := hin w hw
      omega

end

theorem EntryCode.calledIn_eq {layout : FrameLayout} {size : Word} {entry : List Line}
    (h : EntryCode layout size entry) : calledIn entry = [] := by
  cases h <;> rfl

theorem ExitCode.calledIn_eq {layout : FrameLayout} {size : Word} {exit : List Line}
    (h : ExitCode layout size exit) : calledIn exit = [] := by
  cases h <;> rfl

/-- The block of a procedure calls the procedures of the calls inside the body, each as often as the
body does and in the same order. The body is made of the code of these calls, each of which passes
its arguments in the outgoing area, and of lines in between that store no arguments. -/
theorem calls_agree (o : Options) (p : Program) {t t' : SymbolTable} {lines : List Line}
    (ht : (buildAndCheck o p).answer = .ok t)
    (hal : (allocate o.leaves (buildAndCheck o p).tree).run t = .ok () t')
    (hg : generate t' (buildAndCheck o p).tree = .ok lines) {d : ProcDecl}
    (hd : d ∈ (buildAndCheck o p).tree.procedures) :
    Nonempty (Block t' d lines) ∧ ∀ B : Block t' d lines,
      calledIn B.code = d.calls.map (·.procedure) ∧
      CallsPlaced (fun c piece =>
        (∃ s n, Stmt.Code t' (B.procedure.addressing B.size) s n (.call c) piece) ∧
        ∃ callee offsets, c.Passes t' B.procedure.layout B.size piece callee offsets)
        d.calls B.body := by
  have halloc := Allocated.of_ok ht hal
  have hgen := generate_meets (A := True) halloc (.inr trivial)
  rw [hg] at hgen
  obtain ⟨code, hcode, rfl⟩ := hgen
  refine ⟨hcode.exists_block hd, fun B => ?_⟩
  obtain ⟨P, hP, hp⟩ := halloc.placed d hd
  obtain rfl : P = B.procedure := Option.some.inj (hP.procedure.symm.trans B.procedure_eq)
  obtain ⟨s, n, hbody⟩ := B.bodyCode
  have hplaced := hbody.callsPlaced.imp fun c hc piece ⟨n, hpiece⟩ =>
    (⟨⟨s, n, hpiece⟩, halloc.passes hP hp B.frameSize hc hpiece⟩ :
      (∃ s n, Stmt.Code t' (B.procedure.addressing B.size) s n (.call c) piece) ∧
        ∃ callee offsets, c.Passes t' B.procedure.layout B.size piece callee offsets)
  have hcalled := hplaced.calledIn_eq fun c _ piece ⟨_, _, _, h⟩ => h.called
  refine ⟨?_, hplaced⟩
  unfold Block.code
  rw [calledIn_cons, calledIn_append, calledIn_append, B.entryCode.calledIn_eq,
    B.exitCode.calledIn_eq, hcalled]
  simp [plain, Inst.called?, ProcDecl.calls]

/-- The procedure `main` of `nestedCalls` after the check. It makes one of its calls in a loop. -/
def checkedNested : ProcDecl :=
  (buildAndCheck { leaves := true } nestedCalls).tree.procedures.getLastD { name := "main" }

theorem calls_agree_nestedCalls : ∃ t t' lines,
    (buildAndCheck { leaves := true } nestedCalls).answer = .ok t ∧
    (allocate true (buildAndCheck { leaves := true } nestedCalls).tree).run t = .ok () t' ∧
    generate t' (buildAndCheck { leaves := true } nestedCalls).tree = .ok lines ∧
    checkedNested ∈ (buildAndCheck { leaves := true } nestedCalls).tree.procedures ∧
    checkedNested.calls.map (fun c => (c.procedure, c.arguments.length)) =
      [("f", 2), ("printi", 1)] ∧
    Nonempty (Block t' checkedNested lines) ∧ ∀ B : Block t' checkedNested lines,
      calledIn B.code = checkedNested.calls.map (·.procedure) ∧
      CallsPlaced (fun c piece =>
        (∃ s n, Stmt.Code t' (B.procedure.addressing B.size) s n (.call c) piece) ∧
        ∃ callee offsets, c.Passes t' B.procedure.layout B.size piece callee offsets)
        checkedNested.calls B.body := by
  have hall : (compile { leaves := true } nestedCalls).answer.toOption.isSome = true ∧
      checkedNested ∈ (buildAndCheck { leaves := true } nestedCalls).tree.procedures ∧
      checkedNested.calls.map (fun c => (c.procedure, c.arguments.length)) =
        [("f", 2), ("printi", 1)] := by decide +kernel
  obtain ⟨hok, hd, hcalls⟩ := hall
  obtain ⟨lines, hlines⟩ := exists_ok_of_isSome hok
  obtain ⟨t, t', ht, hal, hg⟩ := exists_of_compile_eq_ok hlines
  exact ⟨t, t', lines, ht, hal, hg, hd, hcalls,
    calls_agree { leaves := true } nestedCalls ht hal hg hd⟩

end Spl
