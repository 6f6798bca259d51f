import Spl.Proofs.Word
import Spl.Ty.Size

/-!
# Exact sizes of types

`Ty.bytes` counts the bytes of a type in natural numbers, and `Ty.Fits` says that all array
lengths and sizes inside a type are words. On such types the word arithmetic of sizes and offsets
is exact.

* `Ty.checkedByteSize_eq_some_iff`: the size check accepts exactly the types that fit.
* `Ty.byteSize_of_fits`, `Ty.fieldOffset_of_fits`: sizes and field offsets of a type that fits.
* `Ty.Fits.base`, `Ty.Fits.field`: what is inside a type that fits, fits.
* `Ty.bytesBefore_add_le`: a field ends before its record does.
-/

namespace Spl.Ty

mutual

/-- The exact bytes of a value. -/
def bytes : Ty → Nat
  | .int | .bool => 4
  | .array length base => length.toNat * base.bytes
  | .record fields => fieldBytes fields

/-- The exact bytes of the fields of a record. -/
def fieldBytes : List (String × Ty) → Nat
  | [] => 0
  | (_, type) :: fields => type.bytes + fieldBytes fields

end

/-- The exact bytes of the fields before the first one with the given name. -/
def bytesBefore (name : String) : List (String × Ty) → Nat
  | [] => 0
  | (field, type) :: fields => if field = name then 0 else type.bytes + bytesBefore name fields

mutual

/-- True of the types in which every array length and every size is a word. -/
def Fits : Ty → Prop
  | .int | .bool => True
  | .array length base =>
    length.toNat ≤ Word.maxNat ∧ base.Fits ∧ length.toNat * base.bytes ≤ Word.maxNat
  | .record fields => FieldsFit fields ∧ fieldBytes fields ≤ Word.maxNat

/-- True of the fields whose types fit. -/
def FieldsFit : List (String × Ty) → Prop
  | [] => True
  | (_, type) :: fields => type.Fits ∧ FieldsFit fields

end

mutual

/-- Every value consists of words. -/
theorem dvd_bytes : ∀ ty : Ty, 4 ∣ ty.bytes
  | .int | .bool => Nat.dvd_refl 4
  | .array length base => Nat.dvd_mul_left_of_dvd base.dvd_bytes length.toNat
  | .record fields => dvd_fieldBytes fields

theorem dvd_fieldBytes : ∀ fields : List (String × Ty), 4 ∣ fieldBytes fields
  | [] => Nat.dvd_zero 4
  | (_, type) :: fields => Nat.dvd_add type.dvd_bytes (dvd_fieldBytes fields)

end

theorem Fits.bytes_le : ∀ {ty : Ty}, ty.Fits → ty.bytes ≤ Word.maxNat
  | .int, _ | .bool, _ => by simp [bytes, Word.maxNat]
  | .array .., h => by
    simp only [Fits] at h
    simpa only [bytes] using h.2.2
  | .record _, h => by
    simp only [Fits] at h
    simpa only [bytes] using h.2

/-- The elements of an array that fits, fit. -/
theorem Fits.base {length : UInt32} {base : Ty} (h : (Ty.array length base).Fits) : base.Fits := by
  simp only [Fits] at h
  exact h.2.1

theorem Fits.length_le {length : UInt32} {base : Ty} (h : (Ty.array length base).Fits) :
    length.toNat ≤ Word.maxNat := by
  simp only [Fits] at h
  exact h.1

theorem FieldsFit.of_lookup {name : String} {ty : Ty} :
    ∀ {fields : List (String × Ty)}, FieldsFit fields → fields.lookup name = some ty → ty.Fits
  | [], _, h => by cases h
  | (field, type) :: fields, hf, h => by
    simp only [FieldsFit] at hf
    rw [List.lookup_cons] at h
    split at h
    · cases h; exact hf.1
    · exact of_lookup hf.2 h

/-- The fields of a record that fits, fit. -/
theorem Fits.field {fields : List (String × Ty)} {name : String} {ty : Ty}
    (h : (Ty.record fields).Fits) (hl : fieldType? fields name = some ty) : ty.Fits := by
  simp only [Fits] at h
  exact h.1.of_lookup hl

/-! ## Fields -/

section
variable {fields : List (String × Ty)} {name : String} {ty : Ty}

theorem fieldType?_cons {field : String} : fieldType? ((field, ty) :: fields) name =
    if field = name then some ty else fieldType? fields name := by
  unfold fieldType?
  rw [List.lookup_cons]
  by_cases h : field = name
  · simp [h]
  · simp [h, beq_eq_false_iff_ne.2 (Ne.symm h)]

/-- A field ends before its record does. -/
theorem bytesBefore_add_le (h : fieldType? fields name = some ty) :
    bytesBefore name fields + ty.bytes ≤ fieldBytes fields := by
  induction fields with
  | nil => cases h
  | cons field fields ih =>
    obtain ⟨field, part⟩ := field
    rw [fieldType?_cons] at h
    simp only [bytesBefore, fieldBytes]
    split at h
    · next hn =>
      cases h
      simp [hn]
    · next hn =>
      have := ih h
      simp only [hn, if_false]
      omega

end

/-! ## The size check -/

/-- A sum of two words that are not negative is a word exactly if its value fits. -/
theorem sum_toOption_eq_some_iff {a b c : Word} :
    (a.sum b).toOption = some c ↔ c.toInt = a.toInt + b.toInt := by
  rw [← Word.sum_eq_ok_iff]
  cases a.sum b <;> simp [Except.toOption]

theorem product_toOption_eq_some_iff {a b c : Word} :
    (a.product b).toOption = some c ↔ c.toInt = a.toInt * b.toInt := by
  rw [← Word.product_eq_ok_iff]
  cases a.product b <;> simp [Except.toOption]

mutual

/-- The size check accepts a type exactly if the type fits, and answers its bytes. -/
theorem checkedByteSize_eq_some_iff {w : Word} :
    ∀ {ty : Ty}, ty.checkedByteSize = some w ↔ ty.Fits ∧ w.toInt = ty.bytes
  | .int | .bool => by
    simp only [checkedByteSize, Fits, bytes, Option.some.injEq, true_and]
    constructor
    · rintro rfl; rfl
    · exact fun h => (Word.eq_ofNat (n := 4) h).symm
  | .array length base => by
    simp only [checkedByteSize, Fits, bytes, Option.bind_eq_bind, Option.bind_eq_some_iff,
      Word.ofInt?_eq_some_iff, product_toOption_eq_some_iff]
    constructor
    · intro h
      obtain ⟨l, hl, b, hb, hw⟩ := h
      obtain ⟨hf, hb⟩ := checkedByteSize_eq_some_iff.1 hb
      rw [hl, hb, ← Int.natCast_mul] at hw
      exact ⟨⟨Word.inRange_natCast_iff.1 (hl ▸ l.inRange_toInt), hf,
        Word.inRange_natCast_iff.1 (hw ▸ w.inRange_toInt)⟩, hw⟩
    · intro h
      obtain ⟨⟨hl, hf, -⟩, hw⟩ := h
      have hb := checkedByteSize_eq_some_iff.2 ⟨hf, Word.toInt_ofNat hf.bytes_le⟩
      refine ⟨Int32.ofNat length.toNat, Word.toInt_ofNat hl, _, hb, ?_⟩
      rw [hw, Word.toInt_ofNat hl, Word.toInt_ofNat hf.bytes_le, Int.natCast_mul]
  | .record fields => by
    simp only [checkedByteSize, Fits, bytes]
    rw [checkedByteSizeFrom_eq_some_iff 0 (by decide)]
    constructor
    · intro h
      obtain ⟨hf, hw⟩ := h
      have hw' : w.toInt = (fieldBytes fields : Int) := by rw [hw]; simp
      exact ⟨⟨hf, Word.inRange_natCast_iff.1 (hw' ▸ w.inRange_toInt)⟩, hw'⟩
    · intro h
      obtain ⟨⟨hf, -⟩, hw⟩ := h
      exact ⟨hf, by rw [hw]; simp⟩

/-- The partial sums never exceed the last one, so checking each of them is checking the last. -/
theorem checkedByteSizeFrom_eq_some_iff {w : Word} (before : Word) (hb : 0 ≤ before.toInt) :
    ∀ {fields : List (String × Ty)}, checkedByteSizeFrom before fields = some w ↔
      FieldsFit fields ∧ w.toInt = before.toInt + fieldBytes fields
  | [] => by
    simp only [checkedByteSizeFrom, FieldsFit, fieldBytes, Option.some.injEq, true_and,
      Int.natCast_zero, Int.add_zero]
    exact ⟨fun h => h ▸ rfl, fun h => (Int32.toInt_inj.1 h).symm⟩
  | (_, type) :: fields => by
    simp only [checkedByteSizeFrom, FieldsFit, fieldBytes, Option.bind_eq_bind,
      Option.bind_eq_some_iff, sum_toOption_eq_some_iff]
    constructor
    · intro h
      obtain ⟨b, hb', m, hm, hw⟩ := h
      obtain ⟨hf, hb'⟩ := checkedByteSize_eq_some_iff.1 hb'
      obtain ⟨hfs, hw⟩ := (checkedByteSizeFrom_eq_some_iff m (by omega)).1 hw
      exact ⟨⟨hf, hfs⟩, by omega⟩
    · intro h
      obtain ⟨⟨hf, hfs⟩, hw⟩ := h
      have ht := checkedByteSize_eq_some_iff.2 ⟨hf, Word.toInt_ofNat hf.bytes_le⟩
      have hr : Word.InRange (before.toInt + type.bytes) := by
        have := w.inRange_toInt
        have := before.inRange_toInt
        unfold Word.InRange at *
        omega
      obtain ⟨m, -, hm⟩ := Word.exact_of_inRange .addition hr
      refine ⟨_, ht, m, by rw [hm, Word.toInt_ofNat hf.bytes_le], ?_⟩
      exact (checkedByteSizeFrom_eq_some_iff m (by omega)).2 ⟨hfs, by omega⟩

end

theorem isSome_checkedByteSize_iff {ty : Ty} : ty.checkedByteSize.isSome ↔ ty.Fits := by
  rw [Option.isSome_iff_exists]
  constructor
  · intro h
    obtain ⟨w, hw⟩ := h
    exact (checkedByteSize_eq_some_iff.1 hw).1
  · exact fun h => ⟨_, checkedByteSize_eq_some_iff.2 ⟨h, Word.toInt_ofNat h.bytes_le⟩⟩

/-! ## Sizes and offsets of types that fit -/

theorem toInt32_eq_ofNat (n : UInt32) :
    n.toInt32 = Int32.ofNat n.toNat := by
  rw [← UInt32.toInt32_ofNat', UInt32.ofNat_toNat]

mutual

/-- The size of a type that fits is its exact size. -/
theorem byteSize_of_fits : ∀ {ty : Ty}, ty.Fits →
    ∃ w, ty.byteSize = .ok w ∧ w.toInt = ty.bytes
  | .int, _ | .bool, _ => ⟨wordBytes, by simp only [byteSize], rfl⟩
  | .array length base, h => by
    obtain ⟨b, hb, hb'⟩ := byteSize_of_fits h.base
    have hl := h.length_le
    have hp : Word.InRange (length.toInt32.toInt * b.toInt) := by
      rw [toInt32_eq_ofNat, Word.toInt_ofNat hl, hb', ← Int.natCast_mul]
      simp only [Fits] at h
      exact Word.inRange_natCast_iff.2 h.2.2
    obtain ⟨w, hw, hw'⟩ := Word.product_of_inRange hp
    refine ⟨w, by simpa only [byteSize, hb, bind, Except.bind] using hw, ?_⟩
    rw [hw', toInt32_eq_ofNat, Word.toInt_ofNat hl, hb', bytes, Int.natCast_mul]
  | .record fields, h => by
    simp only [Fits] at h
    obtain ⟨w, hw, hw'⟩ := byteSizeFrom_of_fits 0 (by decide) h.1
      (by simpa [Int32.toInt_zero] using h.2)
    exact ⟨w, by simpa only [byteSize] using hw, by simpa [bytes] using hw'⟩

theorem byteSizeFrom_of_fits (before : Word) (hb : 0 ≤ before.toInt) :
    ∀ {fields : List (String × Ty)}, FieldsFit fields →
      before.toInt + fieldBytes fields ≤ Word.maxNat →
      ∃ w, byteSizeFrom before fields = .ok w ∧ w.toInt = before.toInt + fieldBytes fields
  | [], _, _ => ⟨before, by simp only [byteSizeFrom], by simp [fieldBytes]⟩
  | (_, type) :: fields, hf, hm => by
    simp only [FieldsFit] at hf
    simp only [fieldBytes, Int.natCast_add] at hm
    obtain ⟨b, ht, hb'⟩ := byteSize_of_fits hf.1
    have hr : Word.InRange (before.toInt + b.toInt) := by
      unfold Word.InRange Word.maxNat at *
      omega
    obtain ⟨m, hs, hm'⟩ := Word.sum_of_inRange hr
    obtain ⟨w, hw, hw'⟩ := byteSizeFrom_of_fits m (by omega) hf.2 (by omega)
    refine ⟨w, ?_, by simp only [fieldBytes, Int.natCast_add]; omega⟩
    simpa only [byteSizeFrom, ht, hs, bind, Except.bind] using hw

end

theorem fieldOffsetFrom_of_fits {name : String} (before : Word) (hb : 0 ≤ before.toInt) :
    ∀ {fields : List (String × Ty)} {ty : Ty}, FieldsFit fields →
      before.toInt + fieldBytes fields ≤ Word.maxNat → fields.lookup name = some ty →
      ∃ w, fieldOffsetFrom before fields name = .ok (some w) ∧
        w.toInt = before.toInt + bytesBefore name fields
  | [], _, _, _, h => by cases h
  | (field, type) :: fields, ty, hf, hm, h => by
    simp only [FieldsFit] at hf
    simp only [fieldBytes, Int.natCast_add] at hm
    rw [List.lookup_cons] at h
    by_cases hn : field = name
    · exact ⟨before, by simp only [fieldOffsetFrom, hn, if_true], by simp [bytesBefore, hn]⟩
    · have hn' : (name == field) = false := by simpa using fun e => hn e.symm
      rw [hn'] at h
      obtain ⟨b, ht, hb'⟩ := byteSize_of_fits hf.1
      have hr : Word.InRange (before.toInt + b.toInt) := by
        unfold Word.InRange Word.maxNat at *
        omega
      obtain ⟨m, hs, hm'⟩ := Word.sum_of_inRange hr
      obtain ⟨w, hw, hw'⟩ := fieldOffsetFrom_of_fits m (by omega) hf.2 (by omega) h
      refine ⟨w, ?_, by simp only [bytesBefore, if_neg hn, Int.natCast_add]; omega⟩
      simpa only [fieldOffsetFrom, if_neg hn, ht, hs, bind, Except.bind] using hw

/-- The offset of a field of a record that fits is the exact sum of the sizes before it. -/
theorem fieldOffset_of_fits {fields : List (String × Ty)} {name : String} {ty : Ty}
    (h : (Ty.record fields).Fits) (hl : fieldType? fields name = some ty) :
    ∃ w, fieldOffset fields name = .ok (some w) ∧ w.toInt = bytesBefore name fields := by
  simp only [Fits] at h
  obtain ⟨w, hw, hw'⟩ := fieldOffsetFrom_of_fits 0 (by decide) h.1
    (by simpa [Int32.toInt_zero] using h.2) hl
  exact ⟨w, hw, by simpa using hw'⟩

end Spl.Ty
