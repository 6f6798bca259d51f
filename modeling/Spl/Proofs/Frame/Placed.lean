import Spl.Frame.Allocation
import Spl.Proofs.SymbolTable.Places

/-!
# Placed frames

What allocation makes of a procedure, said by the declaration alone: parameters take one word each
from the frame pointer upwards, local variables lie back to back below it, and the outgoing area
has room for the longest call.

* `ProcDecl.frame`: the layout of the frame.
* `Placed`: a table in which a procedure is placed.
* `placeParameters_eq`, `argumentBytesFrom_eq`: the arithmetic of argument areas.
-/

namespace Spl

namespace ProcDecl

/-- The largest number of arguments in a call of the body. -/
def longestCall (d : ProcDecl) : Nat := d.calls.foldl (fun n c => max n c.arguments.length) 0

/-- The frame that a procedure gets. -/
def frame (leaves : Bool) (d : ProcDecl) : FrameLayout where
  argumentArea := some (Int32.ofNat (4 * d.parameters.length))
  localArea := some (Int32.ofNat d.localBytes)
  outgoingArea := some (Int32.ofNat (4 * d.longestCall))
  isLeaf := leaves && d.calls.isEmpty

end ProcDecl

/-- The table holds `P` for the declaration `d`, and all of it has its place. -/
structure Placed (leaves : Bool) (t : SymbolTable) (d : ProcDecl) (P : Procedure) : Prop where
  signature : ∀ (i : Nat) v, P.parameters[i]? = some v →
    ∃ w, v.offset = some w ∧ w.toInt = 4 * (i : Int)
  parameters : ∀ (i : Nat) b, d.parameters[i]? = some b →
    ∃ v w, t.local? P.localScope b.name = some v ∧ v.offset = some w ∧ w.toInt = 4 * (i : Int)
  locals : ∀ (i : Nat) b, d.locals[i]? = some b → ∃ v w, t.local? P.localScope b.name = some v ∧
    v.offset = some w ∧ w.toInt = -(ProcDecl.bytesOf (d.locals.take (i + 1)) : Int)
  layout : P.layout = d.frame leaves
  argumentRoom : 4 * d.parameters.length ≤ Word.maxNat
  outgoingRoom : 4 * d.longestCall ≤ Word.maxNat

/-! ## Argument areas -/

namespace Variable

variable {v : Variable}

/-- Every parameter takes one word: an address or a primitive value. -/
theorem Realizes.footprint_eq {b : ParamDecl} (h : v.Realizes b) :
    v.footprint = .ok wordBytes := by
  unfold footprint
  cases hr : v.isReference with
  | true => rfl
  | false =>
    have ha := h.word hr
    cases ht : v.type with
    | int => rw [if_neg Bool.false_ne_true]; simp only [Ty.byteSize]
    | bool => rw [if_neg Bool.false_ne_true]; simp only [Ty.byteSize]
    | array _ _ => rw [ht] at ha; cases ha
    | record _ => rw [ht] at ha; cases ha

end Variable

theorem Builtin.footprint_eq {b : Builtin} {v : Variable} (hv : v ∈ b.signature) :
    v.footprint = .ok wordBytes := by
  obtain ⟨i, hi, rfl⟩ := List.mem_mapIdx.1 hv
  unfold Variable.footprint
  split
  · rfl
  · simp only [Ty.byteSize]

namespace Word

theorem sum_wordBytes {n : Nat} (h : n ≤ maxNat) :
    Word.sum (Int32.ofNat n) wordBytes = exact .addition (n + 4 : Nat) := by
  have h4 : wordBytes.toInt = 4 := rfl
  rw [Word.sum, toInt_ofNat h, h4]
  rfl

end Word

/-- The parameters with the offsets from `n` upwards. -/
def placedFrom : (n : Nat) → List Variable → List Variable
  | _, [] => []
  | n, v :: vs => { v with offset := some (Int32.ofNat n) } :: placedFrom (n + 4) vs

theorem map_outline_placedFrom (n : Nat) (vs : List Variable) :
    (placedFrom n vs).map Variable.outline = vs.map Variable.outline := by
  induction vs generalizing n with
  | nil => rfl
  | cons v vs ih =>
    rw [placedFrom, List.map_cons, List.map_cons, ih]
    rfl

theorem length_placedFrom (n : Nat) (vs : List Variable) :
    (placedFrom n vs).length = vs.length := by
  simpa using congrArg List.length (map_outline_placedFrom n vs)

theorem offset_of_getElem?_placedFrom (n : Nat) (vs : List Variable) {i : Nat} {v : Variable}
    (h : (placedFrom n vs)[i]? = some v) : v.offset = some (Int32.ofNat (n + 4 * i)) := by
  induction vs generalizing n i with
  | nil => cases h
  | cons w vs ih =>
    cases i with
    | zero =>
      cases h
      rfl
    | succ i => rw [ih (n + 4) h, show n + 4 + 4 * i = n + 4 * (i + 1) by omega]

/-- Parameters of one word each get the multiples of four. -/
theorem placeParameters_eq {n : Nat} {vs : List Variable}
    (hv : ∀ v ∈ vs, v.footprint = .ok wordBytes) (hn : n + 4 * vs.length ≤ Word.maxNat) :
    placeParameters (Int32.ofNat n) vs =
      ⟨placedFrom n vs, .ok (Int32.ofNat (n + 4 * vs.length))⟩ := by
  induction vs generalizing n with
  | nil => rfl
  | cons v vs ih =>
    rw [List.length_cons] at hn
    have hf : ({ v with offset := some (Int32.ofNat n) } : Variable).footprint = .ok wordBytes :=
      hv v (.head _)
    have hs : Word.sum (Int32.ofNat n) wordBytes = .ok (Int32.ofNat (n + 4)) := by
      rw [Word.sum_wordBytes (by omega), Word.exact_natCast _ (by omega)]
    have hrest := @ih (n + 4) (fun w hw => hv w (.tail _ hw)) (by omega)
    rw [placeParameters]
    simp only [hf, bind, Except.bind, hs, hrest, Visit.mapTree]
    rw [placedFrom, List.length_cons, show n + 4 + 4 * vs.length = n + 4 * (vs.length + 1) by omega]

/-- An argument area that is larger than any word is not placed. -/
theorem placeParameters_of_lt {n : Nat} {vs : List Variable} (hn : n ≤ Word.maxNat)
    (hv : ∀ v ∈ vs, v.footprint = .ok wordBytes) (hlt : Word.maxNat < n + 4 * vs.length) :
    (placeParameters (Int32.ofNat n) vs).answer = .error (.overflow .addition) := by
  induction vs generalizing n with
  | nil =>
    rw [List.length_nil] at hlt
    omega
  | cons v vs ih =>
    have hf : ({ v with offset := some (Int32.ofNat n) } : Variable).footprint = .ok wordBytes :=
      hv v (.head _)
    have hs := Word.sum_wordBytes hn
    rw [List.length_cons] at hlt
    rw [placeParameters]
    simp only [hf, bind, Except.bind]
    by_cases hm : n + 4 ≤ Word.maxNat
    · rw [hs, Word.exact_natCast _ hm]
      exact ih hm (fun w hw => hv w (.tail _ hw)) (by omega)
    · rw [hs, Word.exact_natCast_of_lt _ (by omega)]
      rfl

theorem argumentBytesFrom_eq {n : Nat} {vs : List Variable} (hn : n ≤ Word.maxNat)
    (hv : ∀ v ∈ vs, v.footprint = .ok wordBytes) :
    argumentBytesFrom (Int32.ofNat n) vs = Word.exact .addition (n + 4 * vs.length : Nat) := by
  induction vs generalizing n with
  | nil =>
    rw [argumentBytesFrom, List.length_nil, Nat.mul_zero, Nat.add_zero, Word.exact_natCast _ hn]
  | cons v vs ih =>
    have hvs : ∀ w ∈ vs, w.footprint = .ok wordBytes := fun w hw => hv w (.tail _ hw)
    have hlen : n + 4 * (v :: vs).length = n + 4 + 4 * vs.length := by
      rw [List.length_cons]
      omega
    rw [argumentBytesFrom, hv v (.head _), hlen]
    show Word.sum (Int32.ofNat n) wordBytes >>= (argumentBytesFrom · vs) = _
    rw [Word.sum_wordBytes hn]
    by_cases hm : n + 4 ≤ Word.maxNat
    · rw [Word.exact_natCast _ hm]
      exact ih hm hvs
    · -- A partial sum out of range leaves the whole sum out of range.
      rw [Word.exact_natCast_of_lt _ (by omega), Word.exact_natCast_of_lt _ (by omega)]
      rfl

end Spl
