import Spl.Proofs.Ty.Size
import Spl.SymbolTable.Lemmas

/-!
# Parts of types

The size check looks at a type and at all types nested in it. It accepts exactly if every array
length and the exact size of every part are words, even where an array of length zero hides a part
that is too large. What it accepts has its exact size, and so have the fields of its records.

* `Ty.Part`: a type nested in another one, at any depth, or that type itself.
* `Ty.fits_iff_parts`: a type fits if the lengths and the sizes of its parts are words.
* `Ty.checkedByteSize_exact`: the size check is exact, and sizes and offsets need no other check.
-/

namespace Spl.Ty

variable {s ty : Ty}

/-- The type `s` is nested in another type, at any depth, or is that type itself. -/
inductive Part (s : Ty) : Ty → Prop
  | refl : Part s s
  | base {length : UInt32} {base : Ty} : Part s base → Part s (.array length base)
  | field {fields : List (String × Ty)} {name : String} {ty : Ty} :
      (name, ty) ∈ fields → Part s ty → Part s (.record fields)

theorem fieldsFit_iff {fields : List (String × Ty)} :
    FieldsFit fields ↔ ∀ f ∈ fields, f.2.Fits := by
  induction fields with
  | nil => simp [FieldsFit]
  | cons f fields ih => rw [FieldsFit, ih, List.forall_mem_cons]

/-- The parts of a type that fits, fit. -/
theorem Fits.part (h : ty.Fits) (hs : s.Part ty) : s.Fits := by
  induction hs with
  | refl => exact h
  | base _ ih => exact ih h.base
  | field hf _ ih =>
    rw [Fits] at h
    exact ih (fieldsFit_iff.1 h.1 _ hf)

mutual

/-- A type fits if the sizes and the array lengths of its parts are words. -/
theorem fits_of_parts : ∀ {ty : Ty}, (∀ s : Ty, s.Part ty → s.bytes ≤ Word.maxNat) →
    (∀ length base, (array length base).Part ty → length.toNat ≤ Word.maxNat) → ty.Fits
  | .int, _, _ | .bool, _, _ => by rw [Fits]; trivial
  | .array length base, hsize, hlength => by
    have hbytes := hsize _ .refl
    rw [bytes] at hbytes
    rw [Fits]
    exact ⟨hlength _ _ .refl, fits_of_parts (fun s hs => hsize s (.base hs))
      fun length base hs => hlength length base (.base hs), hbytes⟩
  | .record fields, hsize, hlength => by
    have hbytes := hsize _ .refl
    rw [bytes] at hbytes
    rw [Fits]
    exact ⟨fieldsFit_of_parts (fun f hf s hs => hsize s (.field hf hs))
      fun f hf length base hs => hlength length base (.field hf hs), hbytes⟩

theorem fieldsFit_of_parts : ∀ {fields : List (String × Ty)},
    (∀ f ∈ fields, ∀ s : Ty, s.Part f.2 → s.bytes ≤ Word.maxNat) →
    (∀ f ∈ fields, ∀ length base, (array length base).Part f.2 → length.toNat ≤ Word.maxNat) →
    FieldsFit fields
  | [], _, _ => by rw [FieldsFit]; trivial
  | (name, ty) :: fields, hsize, hlength => by
    rw [FieldsFit]
    exact ⟨fits_of_parts (hsize (name, ty) (.head _)) (hlength (name, ty) (.head _)),
      fieldsFit_of_parts (fun f hf => hsize f (.tail _ hf)) fun f hf => hlength f (.tail _ hf)⟩

end

theorem fits_iff_parts : ty.Fits ↔ (∀ s : Ty, s.Part ty → s.bytes ≤ Word.maxNat) ∧
    ∀ length base, (array length base).Part ty → length.toNat ≤ Word.maxNat := by
  constructor
  · exact fun h => ⟨fun s hs => (h.part hs).bytes_le, fun length base hs => (h.part hs).length_le⟩
  · exact fun h => fits_of_parts h.1 h.2

/-- A length that is a word does not change when it enters a product. -/
theorem toInt_toInt32 {length : UInt32} (h : length.toNat ≤ Word.maxNat) :
    length.toInt32.toInt = length.toNat := by
  rw [toInt32_eq_ofNat, Word.toInt_ofNat h]

/-- The size check accepts a type exactly if every array length in it, its exact size and the exact
size of every type nested in it are words. The answer is the exact size, a multiple of the word
size. Then the size comes out without overflow, all lengths enter it as they are, and every field of
a record has its exact offset and lies inside the record. -/
theorem checkedByteSize_exact (ty : Ty) (n : Word) :
    (ty.checkedByteSize = some n ↔
      ((∀ s : Ty, s.Part ty → s.bytes ≤ Word.maxNat) ∧
        ∀ length base, (array length base).Part ty → length.toNat ≤ Word.maxNat) ∧
      n.toInt = ty.bytes) ∧
    (ty.checkedByteSize = some n →
      0 ≤ n.toInt ∧ 4 ∣ n.toInt ∧ ty.byteSize = .ok n ∧
      (∀ length base, (array length base).Part ty → length.toInt32.toInt = length.toNat) ∧
      ∀ fields, ty = .record fields → ∀ name ∈ fields.map Prod.fst, ∃ s offset size,
        fieldType? fields name = some s ∧ s.byteSize = .ok size ∧ size.toInt = s.bytes ∧
        fieldOffset fields name = .ok (some offset) ∧ offset.toInt = bytesBefore name fields ∧
        offset.toInt + size.toInt ≤ n.toInt) := by
  refine ⟨by rw [checkedByteSize_eq_some_iff, fits_iff_parts], fun h => ?_⟩
  obtain ⟨hfits, hn⟩ := checkedByteSize_eq_some_iff.1 h
  obtain ⟨w, hsize, hw⟩ := byteSize_of_fits hfits
  obtain rfl : w = n := Int32.toInt_inj.1 (hw.trans hn.symm)
  refine ⟨by omega, ?_, hsize, fun length base hs => toInt_toInt32 (hfits.part hs).length_le, ?_⟩
  · rw [hn]
    exact_mod_cast dvd_bytes ty
  · rintro fields rfl name hname
    obtain ⟨s, hs⟩ := Option.isSome_iff_exists.1 (Scope.lookup_isSome_iff.2 hname)
    obtain ⟨offset, hoffset, hvalue⟩ := fieldOffset_of_fits hfits hs
    obtain ⟨size, hbyteSize, hbytes⟩ := byteSize_of_fits (hfits.field hs)
    have hinside := bytesBefore_add_le hs
    rw [bytes] at hn
    exact ⟨s, offset, size, hs, hbyteSize, hbytes, hoffset, hvalue, by omega⟩

/-- A record with fields of two sizes, one of them twice. -/
theorem checkedByteSize_exact_matrix :
    (record [("row", array 3 .int), ("flag", .bool), ("row", .int)]).checkedByteSize = some 20 ∧
      ∃ s offset size, fieldType? [("row", array 3 .int), ("flag", .bool), ("row", .int)] "flag" =
        some s ∧ s.byteSize = .ok size ∧ size.toInt = s.bytes ∧
        fieldOffset [("row", array 3 .int), ("flag", .bool), ("row", .int)] "flag" =
          .ok (some offset) ∧
        offset.toInt = bytesBefore "flag" [("row", array 3 .int), ("flag", .bool), ("row", .int)] ∧
        offset.toInt + size.toInt ≤ Int32.toInt 20 := by
  have h : (record [("row", array 3 .int), ("flag", .bool), ("row", .int)]).checkedByteSize =
      some 20 := by decide +kernel
  exact ⟨h, ((checkedByteSize_exact _ _).2 h).2.2.2.2 _ rfl "flag" (by decide)⟩

/-- An array without elements is rejected for what is nested in it. -/
example : (array 0 (array 4294967295 .int)).checkedByteSize = none := by decide +kernel

end Spl.Ty
