import Spl.Proofs.Frame.Allocation
import Spl.Proofs.Typing.LocalTotals
import Spl.Tree.Build

/-!
# Tiled frames

In the frame of an allocated procedure every word belongs to one area, and in an area every word to
one variable. Addresses are counted from the frame pointer.

* `Tiles`: ranges that follow one another without gap or overlap.
* `ProcDecl.ParametersTiled`: parameters fill the argument area upwards.
* `ProcDecl.LocalsTiled`: local variables fill the local area downwards.
* `ProcDecl.OutgoingFits`: the outgoing area has the size of the largest call.
* `FrameLayout.Tiled`: the areas fill the frame.
* `allocate_tiles`: all of it holds of every procedure of an accepted program.
-/

namespace Spl

open SymbolTable

/-! ## Tilings -/

/-- Ranges of addresses, each given by its start and its size, follow one another from `lo` to `hi`
without gap or overlap. -/
def Tiles : (lo hi : Int) → List (Int × Int) → Prop
  | lo, hi, [] => lo = hi
  | lo, hi, (start, size) :: ranges => start = lo ∧ 0 ≤ size ∧ Tiles (start + size) hi ranges

namespace Tiles

theorem append {mid hi : Int} {rs' : List (Int × Int)} (h' : Tiles mid hi rs') :
    ∀ {lo : Int} {rs : List (Int × Int)}, Tiles lo mid rs → Tiles lo hi (rs ++ rs')
  | _, [], h => by
    cases (show _ = _ from h)
    exact h'
  | _, _ :: _, ⟨hstart, hsize, h⟩ => ⟨hstart, hsize, append h' h⟩

/-- The ranges of a tiling lie between its ends. -/
theorem within : ∀ {lo hi : Int} {rs : List (Int × Int)}, Tiles lo hi rs →
    lo ≤ hi ∧ ∀ r ∈ rs, lo ≤ r.1 ∧ r.1 + r.2 ≤ hi
  | lo, hi, [], h => ⟨Int.le_of_eq h, by simp⟩
  | lo, hi, (start, size) :: rs, ⟨hstart, hsize, h⟩ => by
    obtain ⟨hle, hrs⟩ := within h
    refine ⟨by omega, fun r hr => ?_⟩
    rcases List.mem_cons.1 hr with rfl | hr
    · exact ⟨by omega, by omega⟩
    · have := hrs r hr
      exact ⟨by omega, this.2⟩

/-- A range of a tiling lies below those that follow it. -/
theorem pairwise : ∀ {lo hi : Int} {rs : List (Int × Int)}, Tiles lo hi rs →
    rs.Pairwise fun r r' => r.1 + r.2 ≤ r'.1
  | _, _, [], _ => .nil
  | _, _, (_, _) :: _, ⟨_, _, h⟩ => .cons (fun r hr => (h.within.2 r hr).1) (pairwise h)

end Tiles

/-- A variable of the given size lies at a range. -/
def Variable.LiesAt (v : Variable) (size : Except Fault Word) (r : Int × Int) : Prop :=
  ∃ offset bytes, v.offset = some offset ∧ size = .ok bytes ∧ r = (offset.toInt, bytes.toInt)

/-- True of a range of whole words. -/
def Aligned (r : Int × Int) : Prop := 4 ∣ r.1 ∧ 4 ∣ r.2

/-! ## What tiles a frame -/

namespace ProcDecl

/-- The parameters fill the argument area from the frame pointer upwards, which has the size that
callers reserve. Each lies at the sum of the footprints before it, both as callers see it and as its
own procedure does. -/
def ParametersTiled (t : SymbolTable) (d : ProcDecl) (P : Procedure) : Prop :=
  ∃ area ranges, P.layout.argumentArea = some area ∧ P.argumentBytes = .ok area ∧
    List.Forall₂ (fun v r => v.LiesAt v.footprint r) P.parameters ranges ∧
    List.Forall₂ (fun b r => ∃ v, t.local? P.localScope b.name = some v ∧
      v.LiesAt v.footprint r) d.parameters ranges ∧
    (∀ i v, P.parameters[i]? = some v → ∃ offset, v.offset = some offset ∧
      argumentBytesFrom 0 (P.parameters.take i) = .ok offset) ∧
    Tiles 0 area.toInt ranges ∧ ∀ r ∈ ranges, Aligned r

/-- The local variables fill the local area from the frame pointer downwards. The area has the size
that was checked when the variables of the program `p` were entered. -/
def LocalsTiled (p : Program) (t : SymbolTable) (d : ProcDecl) (P : Procedure) : Prop :=
  ∃ area ranges, P.layout.localArea = some area ∧
    (∃ d₀ ∈ p.procedures, d.name = d₀.name ∧ LocalsChecked d₀.name d₀.locals d.locals area) ∧
    List.Forall₂ (fun b r => ∃ v, t.local? P.localScope b.name = some v ∧
      v.LiesAt v.type.byteSize r) d.locals ranges ∧
    ranges.Pairwise (fun r r' => r'.1 + r'.2 ≤ r.1) ∧
    Tiles (-area.toInt) 0 ranges.reverse ∧ ∀ r ∈ ranges, Aligned r

/-- The outgoing area has the size of the largest arguments of a call at any depth of the body. -/
def OutgoingFits (t : SymbolTable) (d : ProcDecl) (P : Procedure) : Prop :=
  ∃ area sizes, P.layout.outgoingArea = some area ∧
    List.Forall₂ (fun c size => ∃ Q, t.procedure? c.procedure = some Q ∧
      Q.argumentBytes = .ok size) d.calls sizes ∧
    area.toInt = (sizes.map Int32.toInt).foldl max 0 ∧ 4 ∣ area.toInt

end ProcDecl

/-- From the stack pointer up to the frame pointer, a frame that is no leaf frame consists of the
outgoing area, the return address, the old frame pointer and the local area. The place of the old
frame pointer is counted from the stack pointer. -/
def FrameLayout.Tiled (layout : FrameLayout) : Prop :=
  ∀ size, layout.isLeaf = false → layout.frameSize = .ok (some size) →
    ∃ locals outgoing framePointer returnAddress,
      layout.localArea = some locals ∧ layout.outgoingArea = some outgoing ∧
      layout.oldFramePointerOffset = .ok (some framePointer) ∧
      layout.returnAddressOffset = .ok (some returnAddress) ∧
      let ranges := [(-size.toInt, outgoing.toInt), (returnAddress.toInt, 4),
        (-size.toInt + framePointer.toInt, 4), (-locals.toInt, locals.toInt)]
      Tiles (-size.toInt) 0 ranges ∧ ∀ r ∈ ranges, Aligned r

/-! ## Argument areas -/

theorem forall₂_map_range {α β : Type} {R : α → β → Prop} {l : List α} {f : Nat → β}
    (h : ∀ i a, l[i]? = some a → R a (f i)) :
    List.Forall₂ R l ((List.range l.length).map f) := by
  rw [List.forall₂_iff_get]
  refine ⟨by simp, fun i hi hi' => ?_⟩
  simpa using h i _ (List.getElem?_eq_getElem hi)

/-- The ranges of words that follow one another. -/
def wordRanges (n : Nat) : List (Int × Int) :=
  (List.range n).map fun i : Nat => (4 * (i : Int), 4)

theorem tiles_wordRanges (n : Nat) : Tiles 0 (4 * (n : Int)) (wordRanges n) := by
  induction n with
  | zero => rfl
  | succ n ih =>
    have hlast : Tiles (4 * (n : Int)) (4 * ((n + 1 : Nat) : Int)) [(4 * (n : Int), 4)] :=
      ⟨rfl, by decide, show 4 * (n : Int) + 4 = _ by omega⟩
    rw [wordRanges, List.range_succ, List.map_append]
    exact hlast.append ih

theorem aligned_wordRanges {n : Nat} : ∀ r ∈ wordRanges n, Aligned r := by
  intro r hr
  obtain ⟨i, -, rfl⟩ := List.mem_map.1 hr
  exact ⟨Int.dvd_mul_right 4 i, Int.dvd_refl 4⟩

variable {leaves : Bool} {t : SymbolTable} {ds : List ProcDecl} {d : ProcDecl} {P : Procedure}

/-- A word at a multiple of four. -/
theorem Variable.liesAt_word {v : Variable} {w : Word} {i : Nat} (ho : v.offset = some w)
    (hw : w.toInt = 4 * (i : Int)) (hf : v.footprint = .ok wordBytes) :
    v.LiesAt v.footprint (4 * (i : Int), 4) :=
  ⟨w, wordBytes, ho, hf, by rw [hw]; rfl⟩

/-- The arguments of a procedure take one word each. -/
theorem SymbolTable.Holds.argumentBytesFrom_take (hH : t.Holds ds) {name : String}
    {Q : Procedure} (hQ : t.procedure? name = some Q) {n : Nat} (hn : n ≤ Q.parameters.length)
    (hle : 4 * n ≤ Word.maxNat) :
    argumentBytesFrom 0 (Q.parameters.take n) = .ok (Int32.ofNat (4 * n)) := by
  have h := @argumentBytesFrom_eq 0 (Q.parameters.take n) (Nat.zero_le _) fun v hv =>
    hH.footprint_eq hQ (List.mem_of_mem_take hv)
  rw [Nat.zero_add, List.length_take, Nat.min_eq_left hn, Word.exact_natCast _ hle] at h
  exact h

theorem Placed.parametersTiled (h : Placed leaves t d P) (hH : t.Holds ds) (hP : t.Declares d P) :
    d.ParametersTiled t P := by
  have hlen : d.parameters.length = P.parameters.length := hP.parameters.length_eq
  have hroom := h.argumentRoom
  have harea : P.argumentBytes = .ok (Int32.ofNat (4 * d.parameters.length)) := by
    have hb := hH.argumentBytesFrom_take hP.procedure (Nat.le_refl _) (hlen ▸ hroom)
    rw [List.take_length] at hb
    rw [hlen]
    exact hb
  refine ⟨_, wordRanges P.parameters.length, by rw [h.layout]; rfl, harea, ?_, ?_, ?_, ?_,
    aligned_wordRanges⟩
  · refine forall₂_map_range fun i v hv => ?_
    obtain ⟨w, ho, hw⟩ := h.signature i v hv
    exact Variable.liesAt_word ho hw (hH.footprint_eq hP.procedure (List.mem_of_getElem? hv))
  · rw [← hlen]
    refine forall₂_map_range fun i b hb => ?_
    obtain ⟨v, w, hv, ho, hw⟩ := h.parameters i b hb
    obtain ⟨u, hr, v', hv', hview⟩ :=
      exists_of_forall₂_left hP.parameters (List.mem_of_getElem? hb)
    rw [hv, Option.some.injEq] at hv'
    exact ⟨v, hv, Variable.liesAt_word ho hw (hr.of_view (hv' ▸ hview)).footprint_eq⟩
  · intro i v hv
    obtain ⟨w, ho, hw⟩ := h.signature i v hv
    have hi : i < P.parameters.length := (List.getElem?_eq_some_iff.1 hv).1
    refine ⟨w, ho, ?_⟩
    rw [hH.argumentBytesFrom_take hP.procedure (Nat.le_of_lt hi) (by omega)]
    exact congrArg Except.ok (Word.eq_ofNat (by omega)).symm
  · rw [Word.toInt_ofNat hroom, Int.natCast_mul, hlen]
    exact tiles_wordRanges _

/-! ## Local areas -/

/-- The ranges of local variables, downwards from below the first `above` bytes. -/
def rangesBelow : (above : Nat) → List (Binding TypeExpr) → List (Int × Int)
  | _, [] => []
  | above, b :: bs =>
    (-((above + b.type.bytes : Nat) : Int), (b.type.bytes : Int)) ::
      rangesBelow (above + b.type.bytes) bs

theorem tiles_rangesBelow (above : Nat) (bs : List (Binding TypeExpr)) :
    Tiles (-((above + ProcDecl.bytesOf bs : Nat) : Int)) (-(above : Int))
      (rangesBelow above bs).reverse := by
  induction bs generalizing above with
  | nil => exact rfl
  | cons b bs ih =>
    have hlast : Tiles (-((above + b.type.bytes : Nat) : Int)) (-(above : Int))
        [(-((above + b.type.bytes : Nat) : Int), (b.type.bytes : Int))] :=
      ⟨rfl, by omega,
        show -((above + b.type.bytes : Nat) : Int) + (b.type.bytes : Int) = _ by omega⟩
    rw [rangesBelow, List.reverse_cons, ProcDecl.bytesOf, ← Nat.add_assoc]
    exact hlast.append (ih (above + b.type.bytes))

theorem TypeExpr.dvd_bytes (e : TypeExpr) : 4 ∣ e.bytes := by
  unfold TypeExpr.bytes
  cases e.slot.type? with
  | none => exact Nat.dvd_zero 4
  | some ty => exact ty.dvd_bytes

theorem aligned_rangesBelow {above : Nat} {bs : List (Binding TypeExpr)} (h : 4 ∣ above) :
    ∀ r ∈ rangesBelow above bs, Aligned r := by
  induction bs generalizing above with
  | nil => exact fun _ hr => nomatch hr
  | cons b bs ih =>
    have hb := b.type.dvd_bytes
    have hsum : 4 ∣ above + b.type.bytes := Nat.dvd_add h hb
    intro r hr
    rcases List.mem_cons.1 hr with rfl | hr
    · exact ⟨Int.dvd_neg.2 (Int.natCast_dvd_natCast.2 hsum), Int.natCast_dvd_natCast.2 hb⟩
    · exact ih hsum r hr

/-- Local variables at their offsets lie at their ranges. -/
theorem forall₂_rangesBelow {scope : ScopeId} {above : Nat} {bs : List (Binding TypeExpr)}
    (hfit : ∀ b ∈ bs, ∃ v, t.local? scope b.name = some v ∧ v.type.Fits ∧
      b.type.slot.type? = some v.type)
    (h : ∀ (i : Nat) b, bs[i]? = some b → ∃ v w, t.local? scope b.name = some v ∧
      v.offset = some w ∧
      w.toInt = -((above + ProcDecl.bytesOf (bs.take (i + 1)) : Nat) : Int)) :
    List.Forall₂ (fun b r => ∃ v, t.local? scope b.name = some v ∧ v.LiesAt v.type.byteSize r) bs
      (rangesBelow above bs) := by
  induction bs generalizing above with
  | nil => exact .nil
  | cons b bs ih =>
    obtain ⟨v, hv, hf, hslot⟩ := hfit b (.head _)
    obtain ⟨v', w, hv', ho, hw⟩ := h 0 b rfl
    rw [hv, Option.some.injEq] at hv'
    subst hv'
    have hbytes : b.type.bytes = v.type.bytes := by rw [TypeExpr.bytes, hslot]; rfl
    refine .cons ⟨v, hv, ?_⟩ (ih (fun c hc => hfit c (.tail _ hc)) fun i c hc => ?_)
    · obtain ⟨n, hn, hn'⟩ := Ty.byteSize_of_fits hf
      refine ⟨w, n, ho, hn, ?_⟩
      rw [hw, hn', hbytes, List.take_succ_cons, List.take_zero, ProcDecl.bytesOf, hbytes]
      rfl
    · obtain ⟨v', w', hv', ho', hw'⟩ := h (i + 1) c hc
      refine ⟨v', w', hv', ho', ?_⟩
      rw [hw', List.take_succ_cons, ProcDecl.bytesOf, Nat.add_assoc]

theorem Placed.localsTiled {p : Program} (h : Placed leaves t d P) (hP : t.Declares d P)
    (hc : ∃ d₀ ∈ p.procedures, d.name = d₀.name ∧
      ∃ total, LocalsChecked d₀.name d₀.locals d.locals total) :
    d.LocalsTiled p t P := by
  have hfit : ∀ b ∈ d.locals, ∃ v, t.local? P.localScope b.name = some v ∧ v.type.Fits ∧
      b.type.slot.type? = some v.type := fun b hb =>
    hP.local?_local (S := fun _ _ => False) (.refl t) hb
  obtain ⟨d₀, hd₀, hname, total, htotal⟩ := hc
  have hsize : total.toInt = d.localBytes := htotal.total_eq fun b hb ty hty => by
    obtain ⟨v, -, hf, hslot⟩ := hfit b hb
    rw [hslot, Option.some.injEq] at hty
    exact hty ▸ hf
  have htile := tiles_rangesBelow 0 d.locals
  rw [Nat.zero_add] at htile
  have hrev := List.pairwise_reverse.1 htile.pairwise
  refine ⟨total, rangesBelow 0 d.locals, ?_, ⟨d₀, hd₀, hname, htotal⟩, ?_, hrev, ?_,
    aligned_rangesBelow (Nat.dvd_zero 4)⟩
  · rw [h.layout, Word.eq_ofNat hsize]
    rfl
  · refine forall₂_rangesBelow hfit fun i b hb => ?_
    rw [Nat.zero_add]
    exact h.locals i b hb
  · rw [hsize]
    exact htile

/-! ## Outgoing areas -/

/-- The largest of some numbers of words. -/
theorem foldl_max_words (cs : List Call) (n : Nat) :
    (cs.map fun c => ((4 * c.arguments.length : Nat) : Int)).foldl max ((4 * n : Nat) : Int) =
      ((4 * cs.foldl (fun n c => max n c.arguments.length) n : Nat) : Int) := by
  induction cs generalizing n with
  | nil => rfl
  | cons c cs ih =>
    rw [List.map_cons, List.foldl_cons, List.foldl_cons, ← ih]
    congr 1
    omega

theorem le_longestCall {c : Call} (hc : c ∈ d.calls) : c.arguments.length ≤ d.longestCall := by
  have h : ∀ (cs : List Call) (n : Nat), c ∈ cs →
      c.arguments.length ≤ cs.foldl (fun n c => max n c.arguments.length) n := by
    intro cs
    induction cs with
    | nil => exact fun n hc => nomatch hc
    | cons c' cs ih =>
      intro n hc
      rcases List.mem_cons.1 hc with rfl | hc
      · exact Nat.le_trans (Nat.le_max_right n _) (le_foldl_max cs _)
      · exact ih _ hc
  exact h d.calls 0 hc

theorem Placed.outgoingFits (h : Placed leaves t d P) (hH : t.Holds ds)
    (hc : ∀ c ∈ d.calls, ∃ Q, t.procedure? c.procedure = some Q ∧
      c.arguments.length = Q.parameters.length) :
    d.OutgoingFits t P := by
  have hroom := h.outgoingRoom
  have hle : ∀ c ∈ d.calls, 4 * c.arguments.length ≤ Word.maxNat := fun c hc => by
    have := le_longestCall hc
    omega
  refine ⟨_, d.calls.map fun c => Int32.ofNat (4 * c.arguments.length), by rw [h.layout]; rfl,
    ?_, ?_, ?_⟩
  · rw [List.forall₂_map_right_iff, List.forall₂_same]
    intro c hcm
    obtain ⟨Q, hQ, hlen⟩ := hc c hcm
    refine ⟨Q, hQ, ?_⟩
    have hb := hH.argumentBytesFrom_take hQ (Nat.le_refl _) (hlen ▸ hle c hcm)
    rw [List.take_length] at hb
    rw [hlen]
    exact hb
  · have hmap : (d.calls.map fun c => Int32.ofNat (4 * c.arguments.length)).map Int32.toInt =
        d.calls.map fun c => ((4 * c.arguments.length : Nat) : Int) := by
      rw [List.map_map]
      exact List.map_congr_left fun c hcm => Word.toInt_ofNat (hle c hcm)
    rw [hmap, Word.toInt_ofNat hroom]
    exact (foldl_max_words d.calls 0).symm
  · rw [Word.toInt_ofNat hroom]
    exact Int.natCast_dvd_natCast.2 (Nat.dvd_mul_right 4 _)

/-! ## Frames -/

/-- The size of a frame that is no leaf frame, if it is a word. -/
theorem FrameLayout.frameSize_eq_ok {layout : FrameLayout} {locals outgoing size : Word}
    (hl : layout.localArea = some locals) (ho : layout.outgoingArea = some outgoing)
    (hleaf : layout.isLeaf = false) (h : layout.frameSize = .ok (some size)) :
    size.toInt = locals.toInt + outgoing.toInt + 8 := by
  have h8 : linkageBytes.toInt = 8 := rfl
  unfold FrameLayout.frameSize at h
  rw [hl, hleaf, ho] at h
  cases hs : locals.sum outgoing with
  | error f =>
    simp [hs, bind, Except.bind] at h
  | ok n =>
    cases hn : n.sum linkageBytes with
    | error f => simp [hs, hn, bind, Except.bind] at h
    | ok m =>
      have hm : m = size := by simpa [hs, hn, bind, Except.bind, pure, Except.pure] using h
      have h₁ := Word.sum_eq_ok_iff.1 hs
      have h₂ := Word.sum_eq_ok_iff.1 hn
      rw [← hm]
      omega

theorem FrameLayout.tiled {layout : FrameLayout} {locals outgoing : Word}
    (hl : layout.localArea = some locals) (ho : layout.outgoingArea = some outgoing)
    (hl0 : 0 ≤ locals.toInt) (ho0 : 0 ≤ outgoing.toInt) (hl4 : 4 ∣ locals.toInt)
    (ho4 : 4 ∣ outgoing.toInt) : layout.Tiled := by
  intro size hleaf hsize
  have hvalue := FrameLayout.frameSize_eq_ok hl ho hleaf hsize
  have h8 : linkageBytes.toInt = 8 := rfl
  have h4 : wordBytes.toInt = 4 := rfl
  have hrange := size.inRange_toInt
  unfold Word.InRange at hrange
  -- all smaller sums are words because the size is one
  obtain ⟨framePointer, hfp, hfp'⟩ := Word.sum_of_inRange (a := outgoing) (b := wordBytes) (by
    unfold Word.InRange
    omega)
  obtain ⟨n, hn, hn'⟩ := Word.sum_of_inRange (a := locals) (b := linkageBytes) (by
    unfold Word.InRange
    omega)
  obtain ⟨returnAddress, hra, hra'⟩ := Word.negation_of_inRange (a := n) (by
    unfold Word.InRange
    omega)
  refine ⟨locals, outgoing, framePointer, returnAddress, hl, ho, ?_, ?_, ?_, ?_⟩
  · simp [FrameLayout.oldFramePointerOffset, hleaf, ho, hfp, bind, Except.bind, pure, Except.pure]
  · simp [FrameLayout.returnAddressOffset, hleaf, hl, hn, hra, bind, Except.bind, pure, Except.pure]
  · refine ⟨rfl, ho0, by omega, by decide, ?_, by decide, ?_, hl0, ?_⟩
    · show -size.toInt + framePointer.toInt = returnAddress.toInt + 4
      omega
    · show -locals.toInt = -size.toInt + framePointer.toInt + 4
      omega
    · show -locals.toInt + locals.toInt = 0
      omega
  · intro r hr
    simp only [List.mem_cons, List.not_mem_nil, or_false] at hr
    unfold Aligned
    rcases hr with rfl | rfl | rfl | rfl
    · exact ⟨by omega, ho4⟩
    · exact ⟨by omega, Int.dvd_refl 4⟩
    · exact ⟨by omega, Int.dvd_refl 4⟩
    · exact ⟨by omega, hl4⟩

theorem ProcDecl.dvd_bytesOf (bs : List (Binding TypeExpr)) : 4 ∣ bytesOf bs := by
  induction bs with
  | nil => exact Nat.dvd_zero 4
  | cons b bs ih => exact Nat.dvd_add b.type.dvd_bytes ih

theorem Placed.layout_tiled (h : Placed leaves t d P) (hP : t.Declares d P) : P.layout.Tiled := by
  have hlocals : (Int32.ofNat d.localBytes).toInt = d.localBytes :=
    Word.toInt_ofNat (by have := hP.room; omega)
  have houtgoing := Word.toInt_ofNat h.outgoingRoom
  rw [h.layout]
  refine FrameLayout.tiled rfl rfl (by omega) (by omega) ?_ ?_
  · rw [hlocals]
    exact Int.natCast_dvd_natCast.2 (ProcDecl.dvd_bytesOf d.locals)
  · rw [houtgoing]
    exact Int.natCast_dvd_natCast.2 (Nat.dvd_mul_right 4 _)

/-! ## Programs -/

/-- In a program that the first two phases accept and whose frames have been allocated, with leaf
frames or without, the parameters, the local variables and the areas of every procedure tile its
frame. -/
theorem allocate_tiles {o : Options} {p : Program} {leaves : Bool} {t t' : SymbolTable}
    (ht : (buildAndCheck o p).answer = .ok t)
    (hal : (allocate leaves (buildAndCheck o p).tree).run t = .ok () t') :
    ∀ d ∈ (buildAndCheck o p).tree.procedures, ∃ P, t'.procedure? d.name = some P ∧
      d.ParametersTiled t' P ∧ d.LocalsTiled p t' P ∧ d.OutgoingFits t' P ∧ P.layout.Tiled := by
  intro d hd
  have hall : Allocated leaves t' (buildAndCheck o p).tree :=
    (allocate_ends (A := True) (.of_ok ht) (.inr trivial)).ok hal
  obtain ⟨P, hP, hp⟩ := hall.placed d hd
  have hH := hall.accepted.holds
  have hcalls : ∀ c ∈ d.calls, ∃ Q, t'.procedure? c.procedure = some Q ∧
      c.arguments.length = Q.parameters.length := by
    intro c hc
    obtain ⟨s, hs, hcs⟩ := Stmt.mem_callsOf.1 hc
    exact Call.WellTyped.procedure? hP ((hall.accepted.bodies d hd P hP s hs).calls c hcs)
  have hlocals := (buildAndCheck_localsChecked o p).of_ok ht d hd
  exact ⟨P, hP.procedure, hp.parametersTiled hH hP, hp.localsTiled hP hlocals,
    hp.outgoingFits hH hcalls, hp.layout_tiled hP⟩

section
open Build

/-- A program with a local variable without bytes, and with calls of different lengths, one of them
inside a loop. -/
def nestedCalls : Program := program [
  typeDecl "none" (arrayType 0 intType),
  procDecl "f" [param "n" intType, refParam "v" (namedType "none")] [varDecl "i" intType]
    [assign (named "i") (var (named "n"))],
  procDecl "main" []
    [varDecl "n" intType, varDecl "v" (namedType "none"), varDecl "a" (arrayType 3 intType)] [
    whileDo (binary (.compare .lst) (var (named "n")) (int 2))
      (compound [call "f" [var (named "n"), var (named "v")]]),
    call "printi" [int 1]]]

/-- True of an accepted program whose frames can be allocated. -/
def allocates (leaves : Bool) (o : Options) (p : Program) : Bool :=
  match (buildAndCheck o p).answer with
  | .error _ => false
  | .ok t =>
    match (allocate leaves (buildAndCheck o p).tree).run t with
    | .error _ _ => false
    | .ok _ _ => true

theorem exists_of_allocates {leaves : Bool} {o : Options} {p : Program}
    (h : allocates leaves o p = true) : ∃ t t', (buildAndCheck o p).answer = .ok t ∧
      (allocate leaves (buildAndCheck o p).tree).run t = .ok () t' := by
  unfold allocates at h
  split at h
  · cases h
  next t ht =>
  split at h
  · cases h
  next t' hal => exact ⟨t, t', ht, hal⟩

theorem allocate_tiles_nestedCalls : ∃ t t', (buildAndCheck {} nestedCalls).answer = .ok t ∧
    (allocate true (buildAndCheck {} nestedCalls).tree).run t = .ok () t' ∧
    ∀ d ∈ (buildAndCheck {} nestedCalls).tree.procedures, ∃ P, t'.procedure? d.name = some P ∧
      d.ParametersTiled t' P ∧ d.LocalsTiled nestedCalls t' P ∧ d.OutgoingFits t' P ∧
      P.layout.Tiled := by
  have h : allocates true {} nestedCalls = true := by decide +kernel
  obtain ⟨t, t', ht, hal⟩ := exists_of_allocates h
  exact ⟨t, t', ht, hal, allocate_tiles ht hal⟩

end

end Spl
