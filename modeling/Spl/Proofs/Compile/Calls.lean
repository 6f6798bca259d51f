import Spl.Proofs.Compile.Correctness
import Spl.Proofs.Machine.Calls

/-!
# Calls in generated code

The code of a call and the code at the beginning of a procedure agree on where arguments are: the
caller counts from its stack pointer with the offsets of the signature, the body of the procedure
from its own frame with the offsets of its local scope.

* `Call.ReadsOutside`: what is assumed of the evaluation of arguments.
* `Call.Delivers`: the body finds what the arguments pass at the places of its parameters.
* `call_delivers`: every call of a program delivers its arguments.
-/

namespace Spl

open SymbolTable Machine

variable {t : SymbolTable} {p : Program} {d d' : ProcDecl} {P Q : Procedure} {leaves : Bool}

/-- For what the arguments of a call pass, no word is read of an area of the given size above the
stack pointer. -/
def Call.ReadsOutside (div : Word → Word → Option Word) (A : Activation) (m : Memory)
    (stackPointer area : Word) (c : Call) (ps : List ParamDecl) : Prop :=
  ∀ (i : Nat) (e : Expr) (b : ParamDecl), c.arguments[i]? = some e → ps[i]? = some b →
    ∀ j : Nat, 4 * (j : Int) < area.toInt →
      argumentPlace stackPointer j ∉ e.passedReads div A m b.isReference

/-- A call in the body of `P` brings what its arguments pass to the parameters of `Q`. If every
argument passes something, the call runs up to the body of the procedure. The body then finds what
each argument passes, as it was before the call, at the address that it computes for the place of
the parameter. -/
def Call.Delivers (div : Word → Word → Option Word) (t : SymbolTable) (c : Call) (P Q : Procedure)
    (d : ProcDecl) (b : Addressing) (outgoing : Word) (code entry : List Line) : Prop :=
  ∀ (σ : State) (ret : Word),
    let A : Activation := ⟨t, P.localScope, σ.read .framePointer⟩
    c.ReadsOutside div A σ.memory (σ.read .stackPointer) outgoing d.parameters →
    ((∀ (i : Nat) (e : Expr) (q : ParamDecl), c.arguments[i]? = some e →
        d.parameters[i]? = some q → ∃ w, e.Passes div A σ.memory q.isReference w) →
      ∃ σ', CallEnters div d.name code entry ret σ σ') ∧
    ∀ σ', CallEnters div d.name code entry ret σ σ' →
      c.arguments.length = d.parameters.length ∧
      ∀ (i : Nat) (e : Expr) (q : ParamDecl), c.arguments[i]? = some e →
        d.parameters[i]? = some q → ∃ v offset, t.local? Q.localScope q.name = some v ∧
          v.offset = some offset ∧ e.Passes div A σ.memory q.isReference
            (σ'.memory (σ'.read b.base + (b.bias + offset)))

/-- The signature of a procedure says what its declaration says. -/
theorem SymbolTable.Declares.isReference_eq (hQ : t.Declares d' Q) {i : Nat} {b : ParamDecl}
    {v : Variable} (hb : d'.parameters[i]? = some b) (hv : Q.parameters[i]? = some v) :
    v.isReference = b.isReference := by
  obtain ⟨hi, rfl⟩ := List.getElem?_eq_some_iff.1 hb
  obtain ⟨hi', rfl⟩ := List.getElem?_eq_some_iff.1 hv
  exact (List.forall₂_iff_get.1 hQ.parameters).2 i hi hi' |>.1.isReference

/-- The arguments of a call in the body of a placed procedure can be stored. -/
theorem Call.ReadsOutside.storable {div : Word → Word → Option Word} {fp sp outgoing : Word}
    {m : Memory} {c : Call} (hp : Placed leaves t d P) (hQ : t.Declares d' Q)
    (hq : Placed leaves t d' Q) (hc : c ∈ d.calls)
    (hsuits : List.Forall₂ (Expr.Suits (t.typeEnv P.localScope)) c.arguments
      (Q.parameters.map Variable.view)) (ho : P.layout.outgoingArea = some outgoing)
    (h : c.ReadsOutside div ⟨t, P.localScope, fp⟩ m sp outgoing d'.parameters) :
    Storable div ⟨t, P.localScope, fp⟩ m sp d.longestCall 0 c.arguments Q.parameters where
  suits := hsuits
  offsets i v hv := by
    obtain ⟨w, hw, hvalue⟩ := hq.signature i v hv
    rw [hw, Nat.zero_add]
    exact congrArg some (Word.eq_ofNat (by omega))
  fits := by
    rw [Nat.zero_add]
    exact le_longestCall hc
  room := hp.outgoingRoom
  reads i e v he hv j hj := by
    have hlen : d'.parameters.length = Q.parameters.length := hQ.parameters.length_eq
    have hi : i < d'.parameters.length := hlen ▸ (List.getElem?_eq_some_iff.1 hv).1
    have hb := List.getElem?_eq_getElem hi
    rw [hQ.isReference_eq hb hv]
    refine h i e _ he hb j ?_
    have hroom := hp.outgoingRoom
    rw [hp.layout] at ho
    cases ho
    rw [Word.toInt_ofNat hroom]
    omega

/-- The linkage words of a called procedure are none of the words of its arguments. -/
theorem Placed.argumentPlace_not_mem (hQ : t.Declares d Q) (hq : Placed leaves t d Q)
    {size sp : Word} (hsize : Q.layout.frameSize = .ok (some size)) {i : Nat}
    (hi : 4 * i ≤ Word.maxNat) : argumentPlace sp i ∉ Q.layout.linkageWords size sp := by
  have hvalue := Word.toInt_ofNat hi
  unfold FrameLayout.linkageWords
  split
  · next old ret hlink =>
    obtain ⟨hold, hret⟩ := hq.linkage hQ hsize hlink
    rw [List.mem_cons, List.mem_singleton, not_or]
    constructor
    · intro heq
      have hword : Int32.ofNat (4 * i) = old - size := by
        unfold argumentPlace at heq
        grind
      rw [hword] at hvalue
      omega
    · intro heq
      have hword : Int32.ofNat (4 * i) = ret := (Int32.add_right_inj sp).1 heq
      rw [hword] at hvalue
      omega
  · exact List.not_mem_nil

/-- The code of a call in the body of a placed procedure stops in its arguments, or jumps when they
are stored. -/
theorem Allocated.call_leads (div : Word → Word → Option Word) (h : Allocated leaves t p)
    (hd : d ∈ p.procedures) (hP : t.Declares d P) (hp : Placed leaves t d P)
    (hQ : t.Declares d' Q) (hq : Placed leaves t d' Q) {size : Word} {c : Call} (hc : c ∈ d.calls)
    (hname : c.procedure = d'.name) {g g' : Generator}
    (hg : (c.code t (P.addressing size)).run g = .ok () g') :
    c.arguments.length = d'.parameters.length ∧ ∃ code outgoing,
      g'.lines.toList = g.lines.toList ++ code ∧ P.layout.outgoingArea = some outgoing ∧
      ∀ σ : State,
        let A : Activation := ⟨t, P.localScope, σ.read .framePointer⟩
        c.ReadsOutside div A σ.memory (σ.read .stackPointer) outgoing d'.parameters →
        Leads div code (fun _ => False) (fun h σ' =>
            h = .called c.procedure ∧ Delivered div A c Q.parameters σ σ' ∨
            StopsInArguments div A σ.memory c.arguments Q.parameters h σ') ⟨code, σ⟩ := by
  have hQc : t.procedure? c.procedure = some Q := hname ▸ hQ.procedure
  -- a procedure that calls another one has no leaf frame
  have hleaf : P.layout.isLeaf = false := by
    rw [hp.layout]
    show (leaves && d.calls.isEmpty) = false
    rw [List.isEmpty_eq_false_iff.2 (List.ne_nil_of_mem hc), Bool.and_false]
  rw [Procedure.addressing_of_not_leaf hleaf] at hg
  have hready : Ready t ⟨P.localScope, .framePointer, 0⟩ := h.ready hP hp rfl
  have hwell : c.WellTyped (t.typeEnv P.localScope) := by
    obtain ⟨s, hs, hcs⟩ := Stmt.mem_callsOf.1 hc
    exact (h.accepted.bodies d hd P hP s hs).calls c hcs
  obtain ⟨views, hviews, hsuits⟩ := hwell
  obtain ⟨Q', hQ', rfl, -⟩ := hready.procedures _ views hviews
  obtain rfl : Q' = Q := Option.some.inj (hQ'.symm.trans hQc)
  have hrun : ((Stmt.call c).code t ⟨P.localScope, .framePointer, 0⟩).run g = .ok () g' := by
    unfold Stmt.code
    exact hg
  obtain ⟨code, hcode, rfl⟩ := (Stmt.code_ends (A := True) (s := .call c) hready
    (.call ⟨_, hviews, hsuits⟩) (.inr trivial)).ok hrun
  have hlen : c.arguments.length = d'.parameters.length := by
    rw [hQ.parameters.length_eq, hsuits.length_eq, List.length_map]
  refine ⟨hlen, code, _, by simp [Generator.add], by rw [hp.layout]; rfl, ?_⟩
  intro σ A hreads
  have hes : Storable div A σ.memory (σ.read .stackPointer) d.longestCall 0 c.arguments
      Q'.parameters := hreads.storable hp hQ hq hc hsuits (by rw [hp.layout]; rfl)
  have hfp : A = ⟨t, P.localScope, σ.read .framePointer + 0⟩ := by rw [Int32.add_zero]
  rw [hfp] at hes ⊢
  exact hcode.call_leads hcode.linked hready.fits rfl hQc hes

/-- The code at the beginning of a placed procedure leaves the words of its arguments alone, and its
body looks for them there. -/
theorem Placed.enterFrame_leads (div : Word → Word → Option Word) (hQ : t.Declares d Q)
    (hq : Placed leaves t d Q) {size : Word} (hsize : Q.layout.frameSize = .ok (some size))
    {b : Addressing} {g g' : Generator} (hb : (enterFrame Q size).run g = .ok b g') :
    ∃ entry, g'.lines.toList = g.lines.toList ++ entry ∧ ∀ σ : State,
      Leads div entry (fun _ => False) (fun h σ' => h = .finished ∧
        ∀ i, 4 * i ≤ Word.maxNat →
          σ'.memory (σ'.read b.base + (b.bias + Int32.ofNat (4 * i))) =
            σ.memory (argumentPlace (σ.read .stackPointer) i)) ⟨entry, σ⟩ := by
  have hlink : Q.layout.isLeaf = false → ∃ old ret, linkageOffsets Q.layout = .ok (old, ret) := by
    rcases hq.frameSize_cases hQ with ⟨_, -, hlink⟩ | ⟨herror, -⟩
    · exact hlink
    · rw [hsize] at herror
      cases herror
  have hne : ∀ old ret, linkageOffsets Q.layout = .ok (old, ret) → old - size ≠ ret :=
    fun _ _ h => hq.linkage_ne hQ hsize h
  obtain ⟨rfl, entry, hentry, rfl⟩ := (enterFrame_ends (E := fun _ => True) hlink).ok hb
  refine ⟨entry, by simp [Generator.add], fun σ => ?_⟩
  refine (hentry.finishes hne).mono (fun _ h => h) ?_
  intro h σ' hx
  obtain ⟨rfl, hin, hm⟩ := hx
  refine ⟨rfl, fun i hi => ?_⟩
  rw [hin.place hlink]
  exact hm _ (hq.argumentPlace_not_mem hQ hsize hi)

/-- A call in a program whose frames have been allocated delivers what its arguments pass, whichever
procedure of the program it calls. -/
theorem call_delivers (div : Word → Word → Option Word) (o : Options) (p : Program)
    {t t' : SymbolTable} (ht : (buildAndCheck o p).answer = .ok t)
    (hal : (allocate o.leaves (buildAndCheck o p).tree).run t = .ok () t') {d d' : ProcDecl}
    (hd : d ∈ (buildAndCheck o p).tree.procedures) (hd' : d' ∈ (buildAndCheck o p).tree.procedures)
    {P Q : Procedure} (hP : t'.procedure? d.name = some P) (hQ : t'.procedure? d'.name = some Q)
    {size size' : Word} (hsize : P.layout.frameSize = .ok (some size))
    (hsize' : Q.layout.frameSize = .ok (some size')) {c : Call} (hc : c ∈ d.calls)
    (hname : c.procedure = d'.name) {a b : Addressing} {g₀ g₁ g g' g₂ g₃ : Generator}
    (ha : (enterFrame P size).run g₀ = .ok a g₁) (hg : (c.code t' a).run g = .ok () g')
    (hb : (enterFrame Q size').run g₂ = .ok b g₃) :
    ∃ code entry outgoing, g'.lines.toList = g.lines.toList ++ code ∧
      g₃.lines.toList = g₂.lines.toList ++ entry ∧ P.layout.outgoingArea = some outgoing ∧
      c.Delivers div t' P Q d' b outgoing code entry := by
  have halloc : Allocated o.leaves t' (buildAndCheck o p).tree :=
    (allocate_ends (A := True) (Accepted.of_ok ht) (.inr trivial)).ok hal
  obtain ⟨P', hP', hp⟩ := halloc.placed d hd
  obtain ⟨Q', hQ', hq⟩ := halloc.placed d' hd'
  obtain rfl : P' = P := Option.some.inj (hP'.procedure.symm.trans hP)
  obtain rfl : Q' = Q := Option.some.inj (hQ'.procedure.symm.trans hQ)
  obtain rfl : a = P'.addressing size := hp.enterFrame_eq hP' hsize ha
  obtain ⟨hlen, code, outgoing, hlines, hout, hcall⟩ :=
    halloc.call_leads div hd hP' hp hQ' hq hc hname hg
  obtain ⟨entry, hlines', hentry⟩ := hq.enterFrame_leads div hQ' hsize' hb
  have hsp : ∀ (σ : State) (ret : Word),
      (σ.write .returnAddress ret).read .stackPointer = σ.read .stackPointer := fun σ ret =>
    State.read_write_of_ne (by decide)
  refine ⟨code, entry, outgoing, hlines, hlines', hout, ?_⟩
  intro σ ret A hreads
  constructor
  · intro hpass
    obtain ⟨n, h, σ₁, hr, ⟨rfl, -⟩ | ⟨-, i, e, v, he, hv, hnot⟩⟩ :=
      (hcall σ hreads).exists_runs fun _ h => h.elim
    · obtain ⟨k, h, σ', hr', rfl, -⟩ :=
        (hentry (σ₁.write .returnAddress ret)).exists_runs fun _ h => h.elim
      exact ⟨σ', n, k, σ₁, hname ▸ hr, hr'⟩
    · have hi : i < d'.parameters.length := hlen ▸ (List.getElem?_eq_some_iff.1 he).1
      have hq := List.getElem?_eq_getElem hi
      obtain ⟨w, hw⟩ := hpass i e _ he hq
      rw [← hQ'.isReference_eq hq hv] at hw
      exact absurd hw (hnot w)
  · intro σ' hrun
    obtain ⟨n, k, σ₁, hr, hr'⟩ := hrun
    refine ⟨hlen, fun i e q he hqi => ?_⟩
    rcases (hcall σ hreads).runs hr with ⟨_, _, -, hfalse, -⟩ | ⟨-, hstored⟩ | ⟨⟨x, hx⟩, -⟩
    · exact hfalse.elim
    · rcases (hentry _).runs hr' with ⟨_, _, -, hfalse, -⟩ | ⟨-, hplaces⟩
      · exact hfalse.elim
      · have hi := (List.getElem?_eq_some_iff.1 hqi).1
        have hroom := hq.argumentRoom
        obtain ⟨v, offset, hv, ho, hvalue⟩ := hq.parameters i q hqi
        have hi' : i < Q'.parameters.length := hQ'.parameters.length_eq ▸ hi
        have hv' := List.getElem?_eq_getElem hi'
        refine ⟨v, offset, hv, ho, ?_⟩
        rw [Word.eq_ofNat (w := offset) (n := 4 * i) (by omega), hplaces i (by omega), hsp,
          State.memory_write, hstored.stackPointer, ← hQ'.isReference_eq hqi hv']
        exact hstored.words i e _ he hv'
    · cases x <;> cases hx

section
open Build

/-- A procedure that calls itself and passes its reference parameter on. -/
def fillDown : Program := program [
  typeDecl "vector" (arrayType 8 intType),
  procDecl "fill" [refParam "v" (namedType "vector"), param "n" intType] [] [
    ifThen (binary (.compare .grt) (var (named "n")) (int 0)) (compound [
      assign (index (named "v") (binary (.arith .sub) (var (named "n")) (int 1))) (var (named "n")),
      call "fill" [var (named "v"), binary (.arith .sub) (var (named "n")) (int 1)]])],
  procDecl "main" [] [varDecl "v" (namedType "vector")] [call "fill" [var (named "v"), int 8]]]

/-- The first procedure of `fillDown`, after the check. -/
def checkedFillDown : ProcDecl :=
  (buildAndCheck {} fillDown).tree.procedures.headD { name := "fill" }

/-- The call in it. -/
def recursiveCall : Call := checkedFillDown.calls.headD { procedure := "fill", arguments := [] }

theorem call_delivers_fillDown : ∃ (t t' : SymbolTable) (P : Procedure) (size : Word)
    (a : Addressing) (g g' : Generator), (buildAndCheck {} fillDown).answer = .ok t ∧
    (allocate false (buildAndCheck {} fillDown).tree).run t = .ok () t' ∧
    checkedFillDown ∈ (buildAndCheck {} fillDown).tree.procedures ∧
    t'.procedure? checkedFillDown.name = some P ∧ P.layout.frameSize = .ok (some size) ∧
    recursiveCall ∈ checkedFillDown.calls ∧ recursiveCall.procedure = checkedFillDown.name ∧
    (enterFrame P size).run {} = .ok a g ∧ (recursiveCall.code t' a).run g = .ok () g' ∧
    ∃ code entry outgoing, g'.lines.toList = g.lines.toList ++ code ∧
      g.lines.toList = entry ∧ P.layout.outgoingArea = some outgoing ∧
      recursiveCall.Delivers (fun x y => if y = 0 then none else some (x / y)) t' P P
        checkedFillDown a outgoing code entry := by
  have h : generates {} {} fillDown checkedFillDown (.call recursiveCall) = true := by
    decide +kernel
  obtain ⟨t, t', P, size, a, g, g', ht, hal, hP, hsize, ha, hg⟩ := exists_of_generates h
  have hd : checkedFillDown ∈ (buildAndCheck {} fillDown).tree.procedures := by
    have hne : (buildAndCheck {} fillDown).tree.procedures ≠ [] := by decide +kernel
    unfold checkedFillDown
    rw [List.headD_eq_head?_getD, List.head?_eq_some_head hne]
    exact List.head_mem hne
  have hc : recursiveCall ∈ checkedFillDown.calls := by decide +kernel
  have hname : recursiveCall.procedure = checkedFillDown.name := by decide +kernel
  unfold Stmt.code at hg
  exact ⟨t, t', P, size, a, g, g', ht, hal, hd, hP, hsize, hc, hname, ha, hg,
    call_delivers (fun x y => if y = 0 then none else some (x / y)) {} fillDown ht hal hd hd hP hP
      hsize hsize hc hname ha hg ha⟩

end

end Spl
