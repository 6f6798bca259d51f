import Spl.Word

/-!
# Word arithmetic in range and around it

Sizes and offsets are computed exactly, the machine computes modulo `2 ^ 32`. The two agree on
every exact result that is a word.

* `Word.exact_of_inRange`, `Word.exact_eq_error_iff`: an operation succeeds exactly on results in
  range, and fails with its own overflow otherwise.
* `Word.eq_add_of_sum`: an exact sum is the wrapped sum.
* `Word.toInt_ofNat`: the word of a natural number in range.
-/

namespace Spl.Word

/-- The largest word. -/
def maxNat : Nat := 2147483647

/-- True of the integers that are values of words. -/
def InRange (n : Int) : Prop := -2147483648 ≤ n ∧ n ≤ 2147483647

theorem inRange_toInt (w : Word) : InRange w.toInt := ⟨w.le_toInt, Int.le_of_lt_add_one w.toInt_lt⟩

theorem inRange_natCast_iff {n : Nat} : InRange n ↔ n ≤ maxNat := by
  simp only [InRange, maxNat]
  omega

theorem exact_of_inRange (o : Overflow) {n : Int} (h : InRange n) :
    ∃ w, exact o n = .ok w ∧ w.toInt = n := by
  have hn : (Int32.ofInt n).toInt = n :=
    Int32.toInt_ofInt_of_le (by have := h.1; omega) (by have := h.2; omega)
  exact ⟨Int32.ofInt n, exact_eq_ok_iff.2 hn, hn⟩

theorem exact_eq_error_iff {o : Overflow} {n : Int} {f : Fault} :
    exact o n = .error f ↔ ¬InRange n ∧ f = .overflow o := by
  constructor
  · intro h
    refine ⟨fun hr => ?_, ?_⟩
    · obtain ⟨w, hw, -⟩ := exact_of_inRange o hr
      rw [hw] at h; cases h
    · unfold exact at h
      split at h
      · cases h
      · cases h; rfl
  · intro h
    obtain ⟨hr, rfl⟩ := h
    cases h : exact o n with
    | ok w => exact absurd (exact_eq_ok_iff.1 h ▸ inRange_toInt w) hr
    | error f =>
      unfold exact at h
      split at h
      · cases h
      · cases h; rfl

theorem sum_of_inRange {a b : Word} (h : InRange (a.toInt + b.toInt)) :
    ∃ w, a.sum b = .ok w ∧ w.toInt = a.toInt + b.toInt :=
  exact_of_inRange .addition h

theorem product_of_inRange {a b : Word} (h : InRange (a.toInt * b.toInt)) :
    ∃ w, a.product b = .ok w ∧ w.toInt = a.toInt * b.toInt :=
  exact_of_inRange .multiplication h

theorem negation_of_inRange {a : Word} (h : InRange (-a.toInt)) :
    ∃ w, a.negation = .ok w ∧ w.toInt = -a.toInt :=
  exact_of_inRange .negation h

theorem toInt_ofNat {n : Nat} (h : n ≤ maxNat) : (Int32.ofNat n).toInt = n := by
  unfold maxNat at h
  exact Int32.toInt_ofNat_of_lt (by omega)

/-- A word is determined by its value, and so a word with the value `n` is the word of `n`. -/
theorem eq_ofNat {w : Word} {n : Nat} (h : w.toInt = n) : w = Int32.ofNat n := by
  have hn : n ≤ maxNat := inRange_natCast_iff.1 (h ▸ inRange_toInt w)
  exact Int32.toInt_inj.1 (by rw [h, toInt_ofNat hn])

theorem exact_natCast (o : Overflow) {n : Nat} (h : n ≤ maxNat) :
    exact o n = .ok (Int32.ofNat n) :=
  exact_eq_ok_iff.2 (toInt_ofNat h)

theorem exact_natCast_of_lt (o : Overflow) {n : Nat} (h : maxNat < n) :
    exact o n = .error (.overflow o) :=
  exact_eq_error_iff.2 ⟨fun hr => Nat.not_le_of_lt h (inRange_natCast_iff.1 hr), rfl⟩

/-! ## Exact and wrapped results -/

theorem eq_add_of_sum {a b c : Word} (h : a.sum b = .ok c) : c = a + b := by
  rw [← Int32.ofInt_toInt c, sum_eq_ok_iff.1 h, Int32.ofInt_add, Int32.ofInt_toInt,
    Int32.ofInt_toInt]

end Spl.Word
