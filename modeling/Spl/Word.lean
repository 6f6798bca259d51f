import Spl.Fault

/-!
# Machine words

Sizes, offsets and immediates are signed 32-bit words. Their arithmetic never wraps: `sum`,
`product` and `negation` give the exact result, or a fault when it is not a word.

* `Word.ofInt?_eq_some_iff`: an integer is a word exactly when some word has its value.
* `Word.sum_eq_ok_iff`, `Word.product_eq_ok_iff`, `Word.negation_eq_ok_iff`: an operation succeeds
  exactly with the word that has the exact value.
-/

namespace Spl

/-- A signed 32-bit word. -/
abbrev Word := Int32

namespace Word

/-- The word with the value `n`, if `n` is in range. -/
def ofInt? (n : Int) : Option Word :=
  if Int32.minValue.toInt ≤ n ∧ n ≤ Int32.maxValue.toInt then some (Int32.ofInt n) else none

/-- The word with the value `n`, or the given overflow. -/
def exact (operation : Overflow) (n : Int) : Except Fault Word :=
  match ofInt? n with
  | some w => .ok w
  | none => .error (.overflow operation)

/-- The exact sum of two words. -/
def sum (a b : Word) : Except Fault Word := exact .addition (a.toInt + b.toInt)

/-- The exact product of two words. -/
def product (a b : Word) : Except Fault Word := exact .multiplication (a.toInt * b.toInt)

/-- The exact negation of a word. -/
def negation (a : Word) : Except Fault Word := exact .negation (-a.toInt)

/-- The decimal digits of a word, after a minus sign if it is negative. -/
def text (a : Word) : String := toString a.toInt

theorem ofInt?_eq_some_iff {n : Int} {w : Word} : ofInt? n = some w ↔ w.toInt = n := by
  have hmin : Int32.minValue.toInt = -2 ^ 31 := rfl
  have hmax : Int32.maxValue.toInt = 2 ^ 31 - 1 := rfl
  have hl := w.le_toInt
  have hu := w.toInt_lt
  constructor
  · intro h
    unfold ofInt? at h
    split at h
    · next hr =>
      injection h with h
      rw [← h, Int32.toInt_ofInt_of_le (by omega) (by omega)]
    · cases h
  · rintro rfl
    rw [ofInt?, if_pos (by omega), Int32.ofInt_toInt]

theorem exact_eq_ok_iff {o : Overflow} {n : Int} {w : Word} :
    exact o n = .ok w ↔ w.toInt = n := by
  rw [← ofInt?_eq_some_iff]
  unfold exact
  cases ofInt? n <;> simp

theorem sum_eq_ok_iff {a b c : Word} : a.sum b = .ok c ↔ c.toInt = a.toInt + b.toInt :=
  exact_eq_ok_iff

theorem product_eq_ok_iff {a b c : Word} : a.product b = .ok c ↔ c.toInt = a.toInt * b.toInt :=
  exact_eq_ok_iff

theorem negation_eq_ok_iff {a c : Word} : a.negation = .ok c ↔ c.toInt = -a.toInt :=
  exact_eq_ok_iff

end Word

end Spl
