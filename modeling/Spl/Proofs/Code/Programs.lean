import Spl.Compile
import Spl.Proofs.Code.FrameAdds
import Spl.Proofs.Frame.Allocation

/-!
# Generating the code of programs

The code of an accepted program in whose table everything is placed.

* `Placed.ready`: the body of a placed procedure has all that its code relies on.
* `ProcDecl.FrameFits`: the condition under which no sum of a procedure's code overflows.
* `ProcDecl.code_ends`, `generate_meets`: procedures and modules.
* `allocateAndGenerate_ends`: the last two phases.
-/

namespace Spl

open SymbolTable

variable {A : Prop} {t : SymbolTable} {d : ProcDecl} {P : Procedure} {ds : List ProcDecl}
  {p : Program} {leaves : Bool}

/-! ## Where variables are -/

theorem ProcDecl.bytesOf_take_le (bs : List (Binding TypeExpr)) (i : Nat) :
    bytesOf (bs.take i) ≤ bytesOf bs := by
  have h := congrArg bytesOf (List.take_append_drop i bs)
  rw [bytesOf_append] at h
  exact Nat.le.intro h

theorem find?_of_variableAt {scope : ScopeId} {name : String} {v : Variable}
    (h : variableAt t scope name = .ok v) : t.find? scope name = some (.var v) := by
  unfold variableAt at h
  split at h
  · next v' hv =>
    cases h
    rw [Option.bind_eq_some_iff] at hv
    obtain ⟨e, he, hev⟩ := hv
    cases e with
    | var v' =>
      cases hev
      exact he
    | type _ => cases hev
    | proc _ => cases hev
  · cases h

/-- The place of a variable that a procedure names: it is the place of a parameter or of a local
variable. -/
theorem Placed.offset_cases (hH : t.Holds ds) (hP : t.Declares d P) (hp : Placed leaves t d P)
    {name : String} {v : Variable} (hv : variableAt t P.localScope name = .ok v) :
    ∃ w, v.offset = some w ∧
      ((∃ (i : Nat) (b : ParamDecl), d.parameters[i]? = some b ∧ b.name = name ∧
          w.toInt = 4 * (i : Int)) ∨
        ∃ n, n ≤ d.localBytes ∧ w.toInt = -(n : Int)) := by
  obtain ⟨hl, -⟩ := hH.find?_var hP (find?_of_variableAt hv)
  obtain ⟨hmem, -⟩ := hP.only name _ (local?_eq_some_iff.1 hl)
  rcases List.mem_append.1 hmem with hmem | hmem
  · obtain ⟨b, hb, rfl⟩ := List.mem_map.1 hmem
    obtain ⟨i, hi⟩ := List.mem_iff_getElem?.1 hb
    obtain ⟨v', w, hv', ho, hw⟩ := hp.parameters i b hi
    rw [hl, Option.some.injEq] at hv'
    exact ⟨w, hv' ▸ ho, .inl ⟨i, b, hi, rfl, hw⟩⟩
  · obtain ⟨b, hb, rfl⟩ := List.mem_map.1 hmem
    obtain ⟨i, hi⟩ := List.mem_iff_getElem?.1 hb
    obtain ⟨v', w, hv', ho, hw⟩ := hp.locals i b hi
    rw [hl, Option.some.injEq] at hv'
    exact ⟨w, hv' ▸ ho, .inr ⟨_, ProcDecl.bytesOf_take_le d.locals (i + 1), hw⟩⟩

theorem Builtin.offset_isSome {b : Builtin} {v : Variable} (hv : v ∈ b.signature) :
    ∃ w, v.offset = some w := by
  obtain ⟨i, hi, rfl⟩ := List.mem_mapIdx.1 hv
  exact ⟨_, rfl⟩

/-- All parameters of all procedures are placed, as callers see them. -/
theorem Allocated.offset_isSome (h : Allocated leaves t p) {name : String} {Q : Procedure}
    (hQ : t.procedure? name = some Q) {v : Variable} (hv : v ∈ Q.parameters) :
    ∃ w, v.offset = some w := by
  rcases h.accepted.holds.procedure_cases hQ with ⟨b, -, -, hps⟩ | ⟨d, hd, rfl, -⟩
  · rw [hps] at hv
    exact Builtin.offset_isSome hv
  · obtain ⟨d', hd', rfl⟩ := List.mem_map.1 hd
    obtain ⟨Q', hQ', hp⟩ := h.placed d' hd'
    have hQQ := hQ'.procedure
    rw [← ProcDecl.head_name, hQ, Option.some.injEq] at hQQ
    rw [hQQ] at hv
    obtain ⟨i, hi⟩ := List.mem_iff_getElem?.1 hv
    obtain ⟨w, hw, -⟩ := hp.signature i v hi
    exact ⟨w, hw⟩

/-- All variables that a procedure can name have types that fit. -/
theorem SymbolTable.Holds.fits (hH : t.Holds ds) (hP : t.Declares d P) :
    (t.typeEnv P.localScope).Fits := by
  intro name ty ref h
  obtain ⟨v, hv, hview⟩ := variableAt_eq (a := ⟨P.localScope, .zero, 0⟩) h
  rw [Variable.view, Prod.mk.injEq] at hview
  exact hview.1 ▸ (hH.find?_var hP (find?_of_variableAt hv)).2

/-- The body of a placed procedure has all that its code relies on. -/
theorem Allocated.ready (h : Allocated leaves t p) (hP : t.Declares d P)
    (hp : Placed leaves t d P) {a : Addressing} (ha : a.scope = P.localScope) : Ready t a where
  fits := ha ▸ h.accepted.holds.fits hP
  offsets name v hv := by
    rw [ha] at hv
    obtain ⟨w, hw, -⟩ := hp.offset_cases h.accepted.holds hP hv
    exact ⟨w, hw⟩
  procedures name views hviews := by
    rw [ha] at hviews
    obtain ⟨Q, hQ, hQv⟩ := hP.signature?_eq hviews
    exact ⟨Q, hQ, hQv, fun v hv => h.offset_isSome hQ hv⟩

/-! ## Frames -/

namespace ProcDecl

/-- No sum of the frame overflows. A leaf frame counts the distances to the parameters from below
the local variables, any other has the outgoing area and the linkage words below them. -/
def FrameFits (leaves : Bool) (d : ProcDecl) : Prop :=
  if leaves && d.calls.isEmpty then
    ∀ q ∈ d.parameters.zipIdx, q.1.name ∈ Stmt.namesOf d.body →
      d.localBytes + 4 * q.2 ≤ Word.maxNat
  else d.localBytes + 4 * d.longestCall + 8 ≤ Word.maxNat

theorem frameFits_of_leaf (h : (leaves && d.calls.isEmpty) = true) :
    d.FrameFits leaves ↔ ∀ q ∈ d.parameters.zipIdx, q.1.name ∈ Stmt.namesOf d.body →
      d.localBytes + 4 * q.2 ≤ Word.maxNat := by
  rw [FrameFits, if_pos h]

theorem frameFits_of_not_leaf (h : (leaves && d.calls.isEmpty) = false) :
    d.FrameFits leaves ↔ d.localBytes + 4 * d.longestCall + 8 ≤ Word.maxNat := by
  rw [FrameFits, h]
  simp

/-- A leaf frame is as large as the local variables. -/
theorem frameSize_of_leaf (h : (leaves && d.calls.isEmpty) = true) :
    (d.frame leaves).frameSize = .ok (some (Int32.ofNat d.localBytes)) := by
  simp only [FrameLayout.frameSize, frame, h]

/-- Any other frame is as large as all of its areas together, unless that is too large. -/
theorem frameSize_of_not_leaf (h : (leaves && d.calls.isEmpty) = false)
    (hl : d.localBytes ≤ Word.maxNat) (ho : 4 * d.longestCall ≤ Word.maxNat) :
    (d.frame leaves).frameSize = (Word.exact .addition
      ((d.localBytes + 4 * d.longestCall + 8 : Nat) : Int)).map some := by
  have h8 : linkageBytes.toInt = 8 := rfl
  simp only [FrameLayout.frameSize, frame, h, Word.sum, Word.toInt_ofNat hl, Word.toInt_ofNat ho,
    ← Int.natCast_add]
  by_cases hm : d.localBytes + 4 * d.longestCall ≤ Word.maxNat
  · rw [Word.exact_natCast _ hm]
    show (Word.exact .addition ((Int32.ofNat (d.localBytes + 4 * d.longestCall)).toInt +
      linkageBytes.toInt)).map some = _
    rw [Word.toInt_ofNat hm, h8]
    rfl
  · rw [Word.exact_natCast_of_lt _ (by omega), Word.exact_natCast_of_lt _ (by omega)]
    rfl

/-- The two linkage words lie inside a frame that fits. -/
theorem linkageOffsets_isSome (h : (leaves && d.calls.isEmpty) = false)
    (hfits : d.localBytes + 4 * d.longestCall + 8 ≤ Word.maxNat) :
    ∃ old ret, linkageOffsets (d.frame leaves) = .ok (old, ret) := by
  have h4 : wordBytes.toInt = 4 := rfl
  have h8 : linkageBytes.toInt = 8 := rfl
  have hl : (Int32.ofNat d.localBytes).toInt = d.localBytes := Word.toInt_ofNat (by omega)
  have ho : (Int32.ofNat (4 * d.longestCall)).toInt = (4 * d.longestCall : Nat) :=
    Word.toInt_ofNat (by omega)
  unfold Word.maxNat at hfits
  obtain ⟨old, hold, -⟩ := Word.sum_of_inRange (a := Int32.ofNat (4 * d.longestCall))
    (b := wordBytes) (by unfold Word.InRange; omega)
  obtain ⟨sum, hsum, hsum'⟩ := Word.sum_of_inRange (a := Int32.ofNat d.localBytes)
    (b := linkageBytes) (by unfold Word.InRange; omega)
  obtain ⟨ret, hret, -⟩ := Word.negation_of_inRange (a := sum) (by unfold Word.InRange; omega)
  refine ⟨old, ret, ?_⟩
  simp only [linkageOffsets, FrameLayout.oldFramePointerOffset, FrameLayout.returnAddressOffset,
    frame, h, hold, hsum, hret, bind, Except.bind, pure, Except.pure]

end ProcDecl

/-! ## Procedures -/

theorem Procedure.addressing_of_leaf {size : Word} (h : P.layout.isLeaf = true) :
    P.addressing size = { scope := P.localScope, base := .stackPointer, bias := size } := by
  rw [addressing, if_pos h]

theorem Procedure.addressing_of_not_leaf {size : Word} (h : P.layout.isLeaf = false) :
    P.addressing size = { scope := P.localScope, base := .framePointer, bias := 0 } := by
  rw [addressing, h]
  rfl

theorem Procedure.addressing_scope (P : Procedure) (size : Word) :
    (P.addressing size).scope = P.localScope := by
  unfold addressing
  split <;> rfl

/-- In a frame that fits, no distance to a variable that is named overflows. -/
theorem Placed.distance_of_fits (hH : t.Holds ds) (hP : t.Declares d P)
    (hp : Placed leaves t d P) (hfits : d.FrameFits leaves) {size : Word}
    (hsize : P.layout.frameSize = .ok (some size)) {name : String}
    (hn : name ∈ Stmt.namesOf d.body) {v : Variable} {offset : Word}
    (hv : variableAt t P.localScope name = .ok v) (ho : v.offset = some offset) :
    ∃ w, (P.addressing size).bias.sum offset = .ok w := by
  have hroom := hP.room
  obtain ⟨w, hw, hcases⟩ := hp.offset_cases hH hP hv
  rw [ho, Option.some.injEq] at hw
  subst hw
  have hleaf : P.layout.isLeaf = (leaves && d.calls.isEmpty) := by rw [hp.layout]; rfl
  cases hl : leaves && d.calls.isEmpty with
  | false =>
    rw [hl] at hleaf
    rw [Procedure.addressing_of_not_leaf hleaf]
    refine ⟨offset, Word.sum_eq_ok_iff.2 ?_⟩
    rw [Int32.toInt_zero, Int.zero_add]
  | true =>
    rw [hl] at hleaf
    rw [hp.layout, ProcDecl.frameSize_of_leaf hl, Except.ok.injEq, Option.some.injEq] at hsize
    subst hsize
    rw [Procedure.addressing_of_leaf hleaf]
    have hb : (Int32.ofNat d.localBytes).toInt = d.localBytes := Word.toInt_ofNat (by omega)
    obtain ⟨w, hw, -⟩ := Word.sum_of_inRange (a := Int32.ofNat d.localBytes) (b := offset) (by
      unfold Word.InRange
      unfold Word.maxNat at hroom
      rcases hcases with ⟨i, b, hi, rfl, hval⟩ | ⟨n, hn, hval⟩
      · have hle := (ProcDecl.frameFits_of_leaf hl).1 hfits (b, i)
          (List.mem_zipIdx_iff_getElem?.2 hi) hn
        unfold Word.maxNat at hle
        dsimp only at hle
        omega
      · omega)
    exact ⟨w, hw⟩

variable {g : Generator} {size : Word}

theorem enterFrame_ends {E : Failure CodegenError → Prop}
    (h : P.layout.isLeaf = false → ∃ old ret, linkageOffsets P.layout = .ok (old, ret)) :
    Ends E (fun a g' => a = P.addressing size ∧ ∃ code, EntryCode P.layout size code ∧
      g' = g.add 0 code) (enterFrame P size) g := by
  unfold enterFrame takeFrame
  cases hl : P.layout.isLeaf with
  | true =>
    rw [if_pos rfl]
    refine .emitNoted_bind (.pure ⟨(Procedure.addressing_of_leaf hl).symm, _, .leaf hl, rfl⟩)
  | false =>
    obtain ⟨old, ret, hlink⟩ := h hl
    rw [if_neg Bool.false_ne_true]
    have haddressing : _ = P.addressing size := (Procedure.addressing_of_not_leaf hl).symm
    refine .lift_gen_bind hlink (.emitNoted_bind (.emitNoted_bind (.emitNoted_bind
      (.emitNoted_bind (.pure ⟨haddressing, _, .frame hl hlink, ?_⟩)))))
    simp

theorem leaveFrame_ends {E : Failure CodegenError → Prop}
    (h : P.layout.isLeaf = false → ∃ old ret, linkageOffsets P.layout = .ok (old, ret)) :
    Ends E (fun _ g' => ∃ code, ExitCode P.layout size code ∧ g' = g.add 0 code)
      (leaveFrame P size) g := by
  unfold leaveFrame releaseFrame
  cases hl : P.layout.isLeaf with
  | true =>
    rw [if_pos rfl]
    exact .emitNoted_bind (.emitNoted ⟨_, .leaf hl, by simp⟩)
  | false =>
    obtain ⟨old, ret, hlink⟩ := h hl
    rw [if_neg Bool.false_ne_true]
    exact .lift_gen_bind hlink (.emitNoted_bind (.emitNoted_bind (.emitNoted_bind
      (.emitNoted ⟨_, .frame hl hlink, by simp⟩))))

/-- The size of a frame is known, unless a sum overflows. -/
theorem Placed.frameSize_cases (hP : t.Declares d P) (hp : Placed leaves t d P) :
    (∃ size, P.layout.frameSize = .ok (some size) ∧ (P.layout.isLeaf = false →
      ∃ old ret, linkageOffsets P.layout = .ok (old, ret))) ∨
      P.layout.frameSize = .error (.overflow .addition) ∧ ¬d.FrameFits leaves := by
  have hroom := hP.room
  have hleaf : P.layout.isLeaf = (leaves && d.calls.isEmpty) := by rw [hp.layout]; rfl
  cases hl : leaves && d.calls.isEmpty with
  | true =>
    refine .inl ⟨_, by rw [hp.layout, ProcDecl.frameSize_of_leaf hl], fun h => ?_⟩
    rw [hleaf, hl] at h
    cases h
  | false =>
    have hsize := ProcDecl.frameSize_of_not_leaf hl (by omega) hp.outgoingRoom
    by_cases hfits : d.localBytes + 4 * d.longestCall + 8 ≤ Word.maxNat
    · rw [Word.exact_natCast _ hfits] at hsize
      exact .inl ⟨_, by rw [hp.layout, hsize]; rfl,
        fun _ => by rw [hp.layout]; exact ProcDecl.linkageOffsets_isSome hl hfits⟩
    · rw [Word.exact_natCast_of_lt _ (by omega)] at hsize
      exact .inr ⟨by rw [hp.layout, hsize]; rfl,
        fun h => hfits ((ProcDecl.frameFits_of_not_leaf hl).1 h)⟩

/-- No sum of a procedure's code overflows. -/
structure ProcDecl.Room (leaves : Bool) (n : Nat) (d : ProcDecl) : Prop where
  labels : n + d.labels < UInt32.size
  fits : d.FrameFits leaves

/-- The code of a procedure. -/
theorem ProcDecl.code_ends (h : Allocated leaves t p) (hd : d ∈ p.procedures)
    (hroom : d.Room leaves g.nextLabel ∨ A) :
    Ends (CodeFailure A) (fun _ g' => ∃ code, d.Code t g.registers g.nextLabel code ∧
      g' = g.add d.labels code) (d.code t) g := by
  obtain ⟨P, hP, hp⟩ := h.placed d hd
  unfold ProcDecl.code
  rw [hP.procedure]
  rcases hp.frameSize_cases hP with ⟨size, hsize, hlink⟩ | ⟨hsize, hnot⟩
  · have hready : Ready t (P.addressing size) := h.ready hP hp (P.addressing_scope size)
    have hwell : ∀ s ∈ d.body, s.WellTyped (t.typeEnv (P.addressing size).scope) := by
      rw [P.addressing_scope]
      exact h.accepted.bodies d hd P hP
    have hbody : CodeRoom t (P.addressing size) g.nextLabel (Stmt.labelsOf d.body)
        (Stmt.namesOf d.body) ∨ A := hroom.imp_left fun hr =>
      ⟨hr.labels, fun name hn v offset hv ho => by
        rw [P.addressing_scope] at hv
        exact hp.distance_of_fits h.accepted.holds hP hr.fits hsize hn hv ho⟩
    refine .lift_gen_bind hsize (.emit_bind (.emit_bind (.emit_bind ?_)))
    refine (enterFrame_ends hlink).bind ?_
    intro _ _ hrun
    obtain ⟨rfl, entry, hentry, rfl⟩ := hrun
    refine .bind (Stmt.codeOf_ends hready hwell ?_) ?_
    · exact hbody
    intro _ _ hrun
    obtain ⟨body, hb, rfl⟩ := hrun
    refine (leaveFrame_ends hlink).mono ?_
    intro _ _ hrun
    obtain ⟨exit, hexit, rfl⟩ := hrun
    refine ⟨_, .mk hP.procedure hsize hentry hb hexit, ?_⟩
    simp [ProcDecl.labels]
  · dsimp only
    rw [hsize]
    exact ⟨rfl, hroom.resolve_left fun hr => hnot hr.fits⟩

/-! ## Code that was generated fits -/

/-- The frame of a procedure whose code was generated fits. -/
theorem ProcDecl.Code.frameFits (hH : t.Holds ds) (hP : t.Declares d P) (hp : Placed leaves t d P)
    {s : RegisterStack} {n : Nat} {code : List Line} (h : d.Code t s n code) :
    d.FrameFits leaves := by
  obtain ⟨hQ, hsize, -, hbody, -⟩ := h
  rw [hP.procedure, Option.some.injEq] at hQ
  subst hQ
  have hroom := hP.room
  cases hl : leaves && d.calls.isEmpty with
  | false =>
    rw [hp.layout, ProcDecl.frameSize_of_not_leaf hl (by omega) hp.outgoingRoom] at hsize
    refine (ProcDecl.frameFits_of_not_leaf hl).2 (Nat.le_of_not_lt fun hlt => ?_)
    rw [Word.exact_natCast_of_lt _ hlt] at hsize
    cases hsize
  | true =>
    rw [hp.layout, ProcDecl.frameSize_of_leaf hl, Except.ok.injEq, Option.some.injEq] at hsize
    subst hsize
    have hleaf : P.layout.isLeaf = true := by rw [hp.layout]; exact hl
    have hreaches := hbody.reaches (P.based _)
    rw [Procedure.addressing_of_leaf hleaf] at hreaches
    refine (ProcDecl.frameFits_of_leaf hl).2 fun ⟨b, i⟩ hq hn => ?_
    obtain ⟨w, v, offset, hv, ho, hs⟩ := exists_of_forall₂_left hreaches hn
    obtain ⟨v', w', hv', ho', hw'⟩ := hp.parameters i b (List.mem_zipIdx_iff_getElem?.1 hq)
    obtain ⟨hvl, -⟩ := hH.find?_var hP (find?_of_variableAt hv)
    rw [hvl, Option.some.injEq] at hv'
    rw [← hv', ho, Option.some.injEq] at ho'
    have hw := Word.sum_eq_ok_iff.1 hs
    have hr := w.inRange_toInt
    rw [Word.toInt_ofNat (by omega), ho', hw'] at hw
    unfold Word.InRange at hr
    unfold Word.maxNat
    dsimp only
    omega

/-! ## Programs -/

/-- No sum of a program's code overflows, where the procedures `ds` are left to generate. -/
structure ProcDecl.RoomOf (leaves : Bool) (n : Nat) (ds : List ProcDecl) : Prop where
  labels : n + ProcDecl.labelsOf ds < UInt32.size
  fits : ∀ d ∈ ds, d.FrameFits leaves

theorem codeOfProcedures_ends (h : Allocated leaves t p) {l : List ProcDecl} {g : Generator}
    (hl : ∀ d ∈ l, d ∈ p.procedures) (hroom : ProcDecl.RoomOf leaves g.nextLabel l ∨ A) :
    Ends (CodeFailure A) (fun _ g' => ∃ code,
      ProcDecl.CodeOf t g.registers g.nextLabel l code ∧
        g' = g.add (ProcDecl.labelsOf l) code) (codeOfProcedures t l) g := by
  induction l generalizing g with
  | nil => exact .pure ⟨[], .nil, Generator.add_zero_nil.symm⟩
  | cons d l ih =>
    have hroom₁ : d.Room leaves g.nextLabel ∨ A := hroom.imp_left fun hr =>
      ⟨by have hlt := hr.labels; rw [ProcDecl.labelsOf] at hlt; omega,
        hr.fits d (.head _)⟩
    have hroom₂ : ProcDecl.RoomOf leaves (g.nextLabel + d.labels) l ∨ A :=
      hroom.imp_left fun hr =>
        ⟨by have hlt := hr.labels; rw [ProcDecl.labelsOf] at hlt; omega,
          fun d' hd' => hr.fits d' (.tail _ hd')⟩
    unfold codeOfProcedures
    refine (ProcDecl.code_ends h (hl d (.head _)) hroom₁).bind ?_
    intro _ _ hrun
    obtain ⟨c, hc, rfl⟩ := hrun
    refine (ih (fun d' hd' => hl d' (.tail _ hd')) hroom₂).mono ?_
    intro _ _ hrun
    obtain ⟨cs, hcs, rfl⟩ := hrun
    exact ⟨_, .cons hc hcs, by simp [ProcDecl.labelsOf]⟩

theorem importNames_ends {E : Failure CodegenError → Prop} (names : List String) {g : Generator} :
    Ends E (fun _ g' => g' = g.add 0 (names.map fun n => plain (.importName n)))
      (importNames names) g := by
  induction names generalizing g with
  | nil => exact .pure Generator.add_zero_nil.symm
  | cons name names ih =>
    unfold importNames
    refine .emit_bind (ih.mono ?_)
    intro _ _ hrun
    subst hrun
    simp

theorem prologue_ends {E : Failure CodegenError → Prop} :
    Ends E (fun _ g' => g' = g.add 0 prologueLines) prologue g := by
  unfold prologue
  refine (importNames_ends _).bind ?_
  intro _ _ hrun
  subst hrun
  exact .emit_bind (.emit_bind (.emit_bind (.emit (by simp [prologueLines, Function.comp_def]))))

/-- The lines of a module. -/
theorem generate_meets (h : Allocated leaves t p)
    (hroom : ProcDecl.RoomOf leaves 0 p.procedures ∨ A) :
    match generate t p with
    | .ok lines => ∃ code, ProcDecl.CodeOf t {} 0 p.procedures code ∧ lines = prologueLines ++ code
    | .error e => CodeFailure A e := by
  have hends : Ends (CodeFailure A) (fun _ g' => ∃ code, ProcDecl.CodeOf t {} 0 p.procedures code ∧
      g'.lines.toList = prologueLines ++ code) (p.code t) {} := by
    unfold Program.code
    refine prologue_ends.bind ?_
    intro _ _ hrun
    subst hrun
    refine (codeOfProcedures_ends h (fun d hd => hd) hroom).mono ?_
    intro _ _ hrun
    obtain ⟨code, hcode, rfl⟩ := hrun
    exact ⟨code, hcode, by simp [Generator.add]⟩
  unfold generate
  unfold Ends at hends
  have hrun : (p.code t).run {} = p.code t {} := rfl
  rw [hrun]
  cases hg : p.code t {} with
  | ok _ g' =>
    rw [hg] at hends
    exact hends
  | error e g' =>
    rw [hg] at hends
    exact hends

/-- No sum of the last two phases overflows. -/
structure Program.Room (leaves : Bool) (p : Program) : Prop where
  arguments : ∀ d ∈ p.procedures, d.ArgumentRoom
  fits : ∀ d ∈ p.procedures, d.FrameFits leaves
  labels : p.labels < UInt32.size

theorem Ends.adaptExcept {ε ε' σ α : Type} {E : ε → Prop} {E' : ε' → Prop} {Q : α → σ → Prop}
    {f : ε → ε'} {x : EStateM ε σ α} {s : σ} (h : Ends E Q x s) (hf : ∀ e, E e → E' (f e)) :
    Ends E' Q (x.adaptExcept f) s := by
  unfold Ends at *
  unfold EStateM.adaptExcept
  cases hx : x s with
  | ok a s' =>
    rw [hx] at h
    exact h
  | error e s' =>
    rw [hx] at h
    exact hf e h

/-- The last two phases of an accepted program: the frames are placed and the code generated. They
fail only for lack of registers or, without room, by the overflow of a sum. -/
theorem allocateAndGenerate_ends {o : Options} (hA : Accepted t p)
    (hroom : p.Room o.leaves ∨ A) :
    Ends (CodeFailure A) (fun lines t' => Allocated o.leaves t' p ∧ ∃ code,
      ProcDecl.CodeOf t' {} 0 p.procedures code ∧ lines = prologueLines ++ code)
      (allocateAndGenerate o p) t := by
  unfold allocateAndGenerate
  have halloc : Ends (SumFault A) (fun _ t' => Allocated o.leaves t' p) (allocate o.leaves p) t :=
    allocate_ends hA (hroom.imp_left fun h => h.arguments)
  refine (halloc.adaptExcept (f := Failure.fault) (fun _ hf => hf)).bind ?_
  intro _ t' hal
  refine .get_bind ?_
  have hg := generate_meets hal (hroom.imp_left fun h =>
    (⟨by simpa [Program.labels] using h.labels, h.fits⟩ : ProcDecl.RoomOf o.leaves 0 p.procedures))
  cases hgen : generate t' p with
  | ok lines =>
    rw [hgen] at hg
    exact .pure ⟨hal, hg⟩
  | error e =>
    rw [hgen] at hg
    exact .throw hg

end Spl
