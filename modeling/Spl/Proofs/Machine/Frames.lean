import Spl.Proofs.Code.Programs
import Spl.Proofs.Frame.Tiling
import Spl.Proofs.Machine.Basic

/-!
# Runs of the code of frames

The code at the beginning of a procedure takes a frame below the stack pointer and saves the linkage
in it. As long as the linkage words and the stack pointer are left alone, the code at the end brings
everything back.

* `FrameLayout.linkageWords`, `Placed.linkage`: where the linkage words are.
* `InFrame`: what holds while the body of a procedure runs.
* `EntryCode.leads`, `ExitCode.leads`: the code at the beginning and at the end.
-/

namespace Spl

open Machine

/-! ## Memories -/

theorem Memory.set_self (m : Memory) (a v : Word) : m.set a v a = v := if_pos rfl

theorem Memory.set_of_ne {m : Memory} {a b v : Word} (h : b ≠ a) : m.set a v b = m b := if_neg h

/-! ## Linkage words -/

namespace FrameLayout

variable {layout : FrameLayout} {size old ret sp : Word}

/-- The addresses of the two linkage words, where `sp` is the stack pointer at the beginning of the
procedure. A leaf frame has none. -/
def linkageWords (layout : FrameLayout) (size sp : Word) : List Word :=
  match linkageOffsets layout with
  | .ok (old, ret) => [sp - size + old, sp + ret]
  | .error _ => []

theorem linkageWords_eq (h : linkageOffsets layout = .ok (old, ret)) :
    layout.linkageWords size sp = [sp - size + old, sp + ret] := by
  rw [linkageWords, h]

theorem isLeaf_of_linkageOffsets (h : linkageOffsets layout = .ok (old, ret)) :
    layout.isLeaf = false := by
  cases hl : layout.isLeaf with
  | false => rfl
  | true =>
    simp only [linkageOffsets, oldFramePointerOffset, returnAddressOffset, hl, bind, Except.bind]
      at h
    cases h

theorem linkageWords_of_isLeaf (h : layout.isLeaf = true) : layout.linkageWords size sp = [] := by
  unfold linkageWords
  split
  · next hlink =>
    rw [isLeaf_of_linkageOffsets hlink] at h
    cases h
  · rfl

end FrameLayout

theorem Word.eq_sub {a b c : Word} (h : c.toInt = a.toInt - b.toInt) : c = a - b := by
  rw [← Int32.ofInt_toInt c, h, Int32.ofInt_sub, Int32.ofInt_toInt, Int32.ofInt_toInt]

section

variable {leaves : Bool} {t : SymbolTable} {d : ProcDecl} {P : Procedure} {size old ret sp : Word}

/-- The linkage words of a placed procedure lie directly below its local variables. -/
theorem Placed.linkage (hP : t.Declares d P) (hp : Placed leaves t d P)
    (hsize : P.layout.frameSize = .ok (some size))
    (hlink : linkageOffsets P.layout = .ok (old, ret)) :
    (old - size).toInt = -((d.localBytes : Int) + 4) ∧
      ret.toInt = -((d.localBytes : Int) + 8) := by
  have hleaf := FrameLayout.isLeaf_of_linkageOffsets hlink
  have hroom := hP.room
  obtain ⟨locals, outgoing, framePointer, returnAddress, hlocals, -, hold, hret, htiles, -⟩ :=
    hp.layout_tiled hP size hleaf hsize
  have hvalue : linkageOffsets P.layout = .ok (framePointer, returnAddress) := by
    simp only [linkageOffsets, hold, hret, bind, Except.bind]
  rw [hlink, Except.ok.injEq, Prod.mk.injEq] at hvalue
  obtain ⟨rfl, rfl⟩ := hvalue
  have hbytes : locals.toInt = d.localBytes := by
    rw [hp.layout] at hlocals
    cases hlocals
    exact Word.toInt_ofNat (by omega)
  -- the ends of the areas meet
  obtain ⟨-, -, hra, -, hfp, -, hlo, -, -⟩ := htiles
  have hlower : -locals.toInt = -size.toInt + old.toInt + 4 := hlo
  have hmiddle : -size.toInt + old.toInt = ret.toInt + 4 := hfp
  have hbound : -2147483648 ≤ ret.toInt := ret.inRange_toInt.1
  obtain ⟨w, hw, hw'⟩ := Word.exact_of_inRange .addition (n := old.toInt - size.toInt) (by
    unfold Word.InRange
    omega)
  rw [← Word.eq_sub hw', hw']
  constructor <;> omega

theorem Placed.linkage_ne (hP : t.Declares d P) (hp : Placed leaves t d P)
    (hsize : P.layout.frameSize = .ok (some size))
    (hlink : linkageOffsets P.layout = .ok (old, ret)) : old - size ≠ ret := by
  intro heq
  obtain ⟨hold, hret⟩ := hp.linkage hP hsize hlink
  rw [heq] at hold
  omega

end

/-! ## The code of a frame -/

/-- The machine runs the body of a procedure, which it entered in the state `σ₀`: the frame has been
taken from the stack, and the linkage is in its words, or still in the registers in a leaf frame. -/
structure InFrame (layout : FrameLayout) (size : Word) (σ₀ σ : State) : Prop where
  stackPointer : σ.read .stackPointer = σ₀.read .stackPointer - size
  leaf : layout.isLeaf = true → σ.read .framePointer = σ₀.read .framePointer ∧
    σ.read .returnAddress = σ₀.read .returnAddress
  frame : ∀ old ret, linkageOffsets layout = .ok (old, ret) →
    σ.read .framePointer = σ₀.read .stackPointer ∧
      σ.memory (σ₀.read .stackPointer - size + old) = σ₀.read .framePointer ∧
      σ.memory (σ₀.read .stackPointer + ret) = σ₀.read .returnAddress

section

variable {div : Word → Word → Option Word} {program k entry exit : List Line}
  {X : Halt → State → Prop} {layout : FrameLayout} {size : Word} {σ₀ σ σ' : State}

/-- What the body of a procedure may do: it leaves the stack pointer, the frame pointer and the
linkage words alone, and in a leaf frame the return address. -/
theorem InFrame.of_unchanged (h : InFrame layout size σ₀ σ)
    (hsp : σ'.read .stackPointer = σ.read .stackPointer)
    (hfp : σ'.read .framePointer = σ.read .framePointer)
    (hra : layout.isLeaf = true → σ'.read .returnAddress = σ.read .returnAddress)
    (hm : ∀ x ∈ layout.linkageWords size (σ₀.read .stackPointer), σ'.memory x = σ.memory x) :
    InFrame layout size σ₀ σ' where
  stackPointer := by rw [hsp, h.stackPointer]
  leaf hl := by rw [hfp, hra hl]; exact h.leaf hl
  frame old ret hlink := by
    rw [FrameLayout.linkageWords_eq hlink] at hm
    rw [hfp, hm _ (.head _), hm _ (.tail _ (.head _))]
    exact h.frame old ret hlink

/-- The body reaches a variable with a given offset at this distance from the stack pointer with
which the procedure was entered. -/
theorem InFrame.place {P : Procedure} (h : InFrame P.layout size σ₀ σ)
    (hlink : P.layout.isLeaf = false → ∃ old ret, linkageOffsets P.layout = .ok (old, ret))
    (offset : Word) :
    σ.read (P.addressing size).base + ((P.addressing size).bias + offset) =
      σ₀.read .stackPointer + offset := by
  cases hl : P.layout.isLeaf with
  | true =>
    rw [Procedure.addressing_of_leaf hl]
    show σ.read .stackPointer + (size + offset) = _
    rw [h.stackPointer, ← Int32.add_assoc, Int32.sub_add_cancel]
  | false =>
    obtain ⟨old, ret, hlink⟩ := hlink hl
    rw [Procedure.addressing_of_not_leaf hl]
    show σ.read .framePointer + (0 + offset) = _
    rw [(h.frame old ret hlink).1, Int32.zero_add]

/-- The code at the beginning of a procedure takes the frame and saves the linkage in it. The rest
of the memory stays as it was. -/
theorem EntryCode.leads (h : EntryCode layout size entry)
    (hne : ∀ old ret, linkageOffsets layout = .ok (old, ret) → old - size ≠ ret) :
    Leads div program (fun c => c.code = k ∧ InFrame layout size σ c.state ∧
      ∀ x ∉ layout.linkageWords size (σ.read .stackPointer), c.state.memory x = σ.memory x) X
      ⟨entry ++ k, σ⟩ := by
  cases h with
  | leaf hl =>
    refine .next rfl (.here ⟨rfl, ⟨rfl, fun _ => ⟨rfl, rfl⟩, fun old ret hlink => ?_⟩,
      fun _ _ => rfl⟩)
    rw [FrameLayout.isLeaf_of_linkageOffsets hlink] at hl
    cases hl
  | @frame old ret hl hlink =>
    have hback : σ.read .stackPointer - size + size = σ.read .stackPointer :=
      Int32.sub_add_cancel ..
    have hapart : σ.read .stackPointer - size + old ≠ σ.read .stackPointer + ret := by
      intro heq
      apply hne old ret hlink
      grind
    have hmemory : (σ.memory.set (σ.read .stackPointer - size + old) (σ.read .framePointer)).set
        (σ.read .stackPointer - size + size + ret) (σ.read .returnAddress) =
        (σ.memory.set (σ.read .stackPointer - size + old) (σ.read .framePointer)).set
          (σ.read .stackPointer + ret) (σ.read .returnAddress) := by rw [hback]
    refine .next rfl (.next rfl (.next rfl (.next rfl (.here ⟨rfl, ⟨rfl, fun h => ?_,
      fun old' ret' hlink' => ⟨hback, ?_⟩⟩, fun x hx => ?_⟩))))
    · rw [hl] at h
      cases h
    · rw [hlink, Except.ok.injEq, Prod.mk.injEq] at hlink'
      obtain ⟨rfl, rfl⟩ := hlink'
      refine ⟨(congrFun hmemory _).trans ?_, (congrFun hmemory _).trans ?_⟩
      · rw [Memory.set_of_ne hapart, Memory.set_self]
      · rw [Memory.set_self]
    · rw [FrameLayout.linkageWords_eq hlink, List.mem_cons, List.mem_singleton, not_or] at hx
      refine (congrFun hmemory _).trans ?_
      rw [Memory.set_of_ne hx.2, Memory.set_of_ne hx.1]

/-- The code at the end of a procedure brings back the registers that its caller relies on, and
leaves the memory as it is. -/
theorem ExitCode.leads (h : ExitCode layout size exit) (hσ : InFrame layout size σ₀ σ) :
    Leads div program (fun c => c.code = noted (.jumpRegister .returnAddress) "return" :: k ∧
      c.state.memory = σ.memory ∧
      c.state.read .stackPointer = σ₀.read .stackPointer ∧
      c.state.read .framePointer = σ₀.read .framePointer ∧
      c.state.read .returnAddress = σ₀.read .returnAddress) X ⟨exit ++ k, σ⟩ := by
  have hback : σ.read .stackPointer + size = σ₀.read .stackPointer := by
    rw [hσ.stackPointer, Int32.sub_add_cancel]
  cases h with
  | leaf hl =>
    obtain ⟨hfp, hra⟩ := hσ.leaf hl
    exact .next rfl (.here ⟨rfl, rfl, hback, hfp, hra⟩)
  | @frame old ret _ hlink =>
    obtain ⟨hfp, hold, hret⟩ := hσ.frame old ret hlink
    rw [← hfp] at hret
    rw [← hσ.stackPointer] at hold
    exact .next rfl (.next rfl (.next rfl (.here ⟨rfl, rfl, hback, hold, hret⟩)))

end

end Spl
