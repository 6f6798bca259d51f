import Mathlib
import Spl.Proofs.Semantics
import Spl.Proofs.Typing.Judgement

/-!
# Parts of variables

A designator goes from a variable to a part of it, one access after the other. Each access adds a
distance to the address: an index times the size of an element, or the offset of a field. The
distances are counted exactly here, from the numbers that the code of the designator works with.

* `Designator.Accesses`: what a designator accesses, for indices within the bounds.
* `Ty.Reaches`: the distances on the way to a part, and the type of the part.
* `Ty.Reaches.within`: parts lie inside their variable, and no distance leaves the range of words.
* `Ty.Reaches.disjoint`: different parts lie apart.
* `Designator.Inside`, `Designator.Apart`: the same of designators.
* `Designator.locate_eq_add`: the address of a part is that of its variable, plus the distances.
-/

namespace Spl

/-- A step from a value to a part of it. -/
inductive Access where
  | element (index : Int)
  | field (name : String)
  deriving DecidableEq

/-- Two chains of accesses part: they begin alike, and then go to different parts. -/
def Access.Diverge (as as' : List Access) : Prop :=
  ∃ before a a' rest rest', as = before ++ a :: rest ∧ as' = before ++ a' :: rest' ∧ a ≠ a'

/-- A chain of accesses leads from a value of the first type to a part of the second type. The
numbers are the distances that the accesses add: the scaled indices and the offsets of fields. -/
inductive Ty.Reaches : Ty → List Access → List Int → Ty → Prop
  | here {ty : Ty} : Reaches ty [] [] ty
  | element {length : UInt32} {base ty : Ty} {i : Int} {size : Word} {as : List Access}
      {ds : List Int} :
      0 ≤ i → i < length.toNat → base.byteSize = .ok size → Reaches base as ds ty →
      Reaches (.array length base) (.element i :: as) (i * size.toInt :: ds) ty
  | field {fields : List (String × Ty)} {name : String} {part ty : Ty} {offset : Word}
      {as : List Access} {ds : List Int} :
      fieldType? fields name = some part → offsetInRecord name (.record fields) = .ok offset →
      Reaches part as ds ty →
      Reaches (.record fields) (.field name :: as) (offset.toInt :: ds) ty

namespace Designator

/-- The name of the variable to a part of which a designator leads. -/
def root : Designator → String
  | .named _ name _ => name
  | .element _ array _ _ => array.root
  | .field _ record _ _ => record.root

/-- The accesses of a designator, where each index is any number within the bounds of its array. -/
inductive Accesses : Designator → List Access → Prop
  | named {p : Position} {name : String} {slot : TypeSlot} : Accesses (.named p name slot) []
  | element {p : Position} {array : Designator} {index : Expr} {slot : TypeSlot}
      {length : UInt32} {base : Ty} {i : Int} {as : List Access} :
      array.type = .ok (.array length base) → 0 ≤ i → i < length.toNat → array.Accesses as →
      Accesses (.element p array index slot) (as ++ [.element i])
  | field {p : Position} {record : Designator} {name : String} {slot : TypeSlot}
      {as : List Access} :
      record.Accesses as → Accesses (.field p record name slot) (as ++ [.field name])

end Designator

/-! ## Fields -/

namespace Ty

variable {fields : List (String × Ty)} {name name' : String} {ty ty' : Ty}

/-- Of two fields of a record, one ends before the other one begins. -/
theorem bytesBefore_disjoint (h : fieldType? fields name = some ty)
    (h' : fieldType? fields name' = some ty') (hn : name ≠ name') :
    bytesBefore name fields + ty.bytes ≤ bytesBefore name' fields ∨
      bytesBefore name' fields + ty'.bytes ≤ bytesBefore name fields := by
  induction fields with
  | nil => cases h
  | cons field fields ih =>
    obtain ⟨field, part⟩ := field
    rw [fieldType?_cons] at h h'
    simp only [bytesBefore]
    by_cases hf : field = name
    · have hf' : field ≠ name' := hf ▸ hn
      simp only [hf, if_true, Option.some.injEq] at h
      simp [hf, hf ▸ hf', h]
    · by_cases hf' : field = name'
      · simp only [hf', if_true, Option.some.injEq] at h'
        simp [hf', Ne.symm hn, h']
      · simp only [hf, hf', if_false] at h h' ⊢
        have := ih h h'
        omega

/-- The size with which an index is scaled is exact for a type that fits. -/
theorem Fits.toInt_byteSize {size : Word} (h : ty.Fits) (hs : ty.byteSize = .ok size) :
    size.toInt = ty.bytes := by
  obtain ⟨w, hw, hv⟩ := byteSize_of_fits h
  rw [hs] at hw
  cases hw
  exact hv

theorem Fits.exists_offset (h : (Ty.record fields).Fits) (hf : fieldType? fields name = some ty) :
    ∃ offset, offsetInRecord name (.record fields) = .ok offset := by
  obtain ⟨offset, ho, -⟩ := fieldOffset_of_fits h hf
  exact ⟨offset, by simp only [offsetInRecord, ho, bind, Except.bind]⟩

/-- The offset that is added for a field is exact in a record that fits. -/
theorem Fits.toInt_offset {offset : Word} (h : (Ty.record fields).Fits)
    (hf : fieldType? fields name = some ty)
    (ho : offsetInRecord name (.record fields) = .ok offset) :
    offset.toInt = bytesBefore name fields := by
  obtain ⟨w, hw, hv⟩ := fieldOffset_of_fits h hf
  simp only [offsetInRecord, hw, bind, Except.bind, Except.ok.injEq] at ho
  exact ho ▸ hv

/-- A part of an element ends before the elements with greater indices begin. -/
theorem mul_add_le_mul {i i' x : Int} {b : Nat} (h : i < i') (hx : x ≤ b) :
    i * b + x ≤ i' * b := by
  have hle := Int.mul_le_mul_of_nonneg_right (show i + 1 ≤ i' by omega) (Int.natCast_nonneg b)
  rw [Int.add_mul, Int.one_mul] at hle
  omega

/-! ## Chains of accesses -/

namespace Reaches

variable {T : Ty} {as as' : List Access} {ds ds' : List Int}

theorem append (h : T.Reaches as ds ty) (h' : ty.Reaches as' ds' ty') :
    T.Reaches (as ++ as') (ds ++ ds') ty' := by
  induction h with
  | here => exact h'
  | element h₀ h₁ hs _ ih => exact .element h₀ h₁ hs (ih h')
  | field hf ho _ ih => exact .field hf ho (ih h')

/-- The parts of a type that fits fit. -/
theorem fits (h : T.Reaches as ds ty) (hT : T.Fits) : ty.Fits := by
  induction h with
  | here => exact hT
  | element _ _ _ _ ih => exact ih hT.base
  | field hf _ _ ih => exact ih (hT.field hf)

/-- A chain of accesses leads to one part only, by the same distances. -/
theorem unique (h : T.Reaches as ds ty) (h' : T.Reaches as ds' ty') : ds = ds' ∧ ty = ty' := by
  induction h generalizing ds' with
  | here =>
    cases h'
    exact ⟨rfl, rfl⟩
  | element _ _ hs _ ih =>
    cases h' with
    | element _ _ hs' h' =>
      obtain ⟨rfl, rfl⟩ := ih h'
      cases hs.symm.trans hs'
      exact ⟨rfl, rfl⟩
  | field hf ho _ ih =>
    cases h' with
    | field hf' ho' h' =>
      cases hf.symm.trans hf'
      obtain ⟨rfl, rfl⟩ := ih h'
      cases ho.symm.trans ho'
      exact ⟨rfl, rfl⟩

/-- No distance is negative, and a part ends before the whole does. -/
theorem within (h : T.Reaches as ds ty) (hT : T.Fits) :
    (∀ n ∈ ds, 0 ≤ n) ∧ ds.sum + ty.bytes ≤ T.bytes := by
  induction h with
  | here => simp
  | @element length base ty i size as ds h₀ h₁ hs _ ih =>
    obtain ⟨hn, hle⟩ := ih hT.base
    have hscaled := mul_add_le_mul h₁ hle
    rw [hT.base.toInt_byteSize hs]
    refine ⟨List.forall_mem_cons.2 ⟨Int.mul_nonneg h₀ (Int.natCast_nonneg _), hn⟩, ?_⟩
    rw [List.sum_cons, bytes, Int.natCast_mul]
    omega
  | @field fields name part ty offset as ds hf ho _ ih =>
    obtain ⟨hn, hle⟩ := ih (hT.field hf)
    have hpart := bytesBefore_add_le hf
    rw [hT.toInt_offset hf ho]
    refine ⟨List.forall_mem_cons.2 ⟨Int.natCast_nonneg _, hn⟩, ?_⟩
    rw [List.sum_cons, bytes]
    omega

theorem sum_nonneg (h : T.Reaches as ds ty) (hT : T.Fits) : 0 ≤ ds.sum :=
  List.sum_nonneg (h.within hT).1

/-- Where two chains part, one part ends before the other one begins. -/
theorem disjoint (hT : T.Fits) (h : T.Reaches as ds ty) (h' : T.Reaches as' ds' ty')
    (hp : Access.Diverge as as') :
    ds.sum + ty.bytes ≤ ds'.sum ∨ ds'.sum + ty'.bytes ≤ ds.sum := by
  obtain ⟨before, a, a', rest, rest', rfl, rfl, hne⟩ := hp
  induction before generalizing T ds ds' with
  | nil =>
    cases h with
    | element h₀ h₁ hs h =>
      cases h' with
      | element h₀' h₁' hs' h' =>
        have hle := (h.within hT.base).2
        have hle' := (h'.within hT.base).2
        have hn := h.sum_nonneg hT.base
        have hn' := h'.sum_nonneg hT.base
        simp only [List.sum_cons, hT.base.toInt_byteSize hs, hT.base.toInt_byteSize hs']
        rcases Int.lt_or_gt_of_ne fun he => hne (congrArg Access.element he) with hlt | hlt
        · have := mul_add_le_mul hlt hle
          omega
        · have := mul_add_le_mul hlt hle'
          omega
    | field hf ho h =>
      cases h' with
      | field hf' ho' h' =>
        have hle := (h.within (hT.field hf)).2
        have hle' := (h'.within (hT.field hf')).2
        have hn := h.sum_nonneg (hT.field hf)
        have hn' := h'.sum_nonneg (hT.field hf')
        have hfields := bytesBefore_disjoint hf hf' fun he => hne (congrArg Access.field he)
        simp only [List.sum_cons, hT.toInt_offset hf ho, hT.toInt_offset hf' ho']
        omega
  | cons a before ih =>
    cases h with
    | element h₀ h₁ hs h =>
      cases h' with
      | element h₀' h₁' hs' h' =>
        rw [hs] at hs'
        cases hs'
        have := ih hT.base h h'
        simp only [List.sum_cons]
        omega
    | field hf ho h =>
      cases h' with
      | field hf' ho' h' =>
        rw [hf] at hf'
        cases hf'
        rw [ho] at ho'
        cases ho'
        have := ih (hT.field hf) h h'
        simp only [List.sum_cons]
        omega

/-- No distance and no partial sum of the distances leaves the range of words. -/
theorem inRange (h : T.Reaches as ds ty) (hT : T.Fits) :
    (∀ n ∈ ds, Word.InRange n) ∧ ∀ k, Word.InRange (ds.take k).sum := by
  obtain ⟨hn, hle⟩ := h.within hT
  have hmax := hT.bytes_le
  have hsum {ns : List Int} (hs : ns.Sublist ds) : Word.InRange ns.sum := by
    have h₀ := List.sum_nonneg fun n hn' => hn n (hs.subset hn')
    have h₁ := hs.sum_le_sum hn
    unfold Word.InRange
    unfold Word.maxNat at hmax
    omega
  refine ⟨fun n hn' => ?_, fun k => hsum (List.take_sublist k ds)⟩
  simpa using hsum (List.singleton_sublist.2 hn')

end Reaches

end Ty

/-! ## Designators -/

namespace Designator

variable {E : TypeEnv}

/-- The root of a designator that has a type is a variable. -/
theorem HasType.root : ∀ {d : Designator} {ty : Ty}, d.HasType E ty →
    ∃ T ref, E.var? d.root = some (T, ref)
  | _, _, .named h => ⟨_, _, h⟩
  | _, _, .element ha _ => ha.root
  | _, _, .field hr _ => hr.root

/-- The type of the variable stands in the designator, and is the same for all tables. -/
theorem HasType.root_type_eq {E' : TypeEnv} {T T' : Ty} {ref ref' : Bool} : ∀ {d : Designator}
    {ty ty' : Ty}, d.HasType E ty → d.HasType E' ty' → E.var? d.root = some (T, ref) →
    E'.var? d.root = some (T', ref') → T = T'
  | _, _, _, .named h, .named h', hv, hv' => by
    cases h.symm.trans hv
    cases h'.symm.trans hv'
    rfl
  | _, _, _, .element ha _, .element ha' _, hv, hv' => ha.root_type_eq ha' hv hv'
  | _, _, _, .field hr _, .field hr' _, hv, hv' => hr.root_type_eq hr' hv hv'

/-- The accesses of a designator lead from its variable to what it denotes. -/
theorem HasType.reaches (hE : E.Fits) {T : Ty} {ref : Bool} : ∀ {d : Designator} {ty : Ty}
    {as : List Access}, d.HasType E ty → E.var? d.root = some (T, ref) → d.Accesses as →
    ∃ ds, T.Reaches as ds ty
  | _, _, _, .named h, hv, .named => by
    rw [Designator.root, h] at hv
    cases hv
    exact ⟨[], .here⟩
  | _, _, _, .element ha _, hv, .element hty h₀ h₁ has => by
    rw [ha.type_eq] at hty
    cases hty
    obtain ⟨ds, hds⟩ := ha.reaches hE hv has
    obtain ⟨size, hsize, -⟩ := Ty.byteSize_of_fits (ha.fits hE).base
    exact ⟨_, hds.append (.element h₀ h₁ hsize .here)⟩
  | _, _, _, .field hr hf, hv, .field has => by
    obtain ⟨ds, hds⟩ := hr.reaches hE hv has
    obtain ⟨offset, ho⟩ := (hr.fits hE).exists_offset hf
    exact ⟨_, hds.append (.field hf ho .here)⟩

/-- Whatever indices within the bounds it meets, a designator denotes bytes inside its variable, of
type `T`, and neither a distance nor a partial sum of distances leaves the range of words. -/
def Inside (T : Ty) (d : Designator) : Prop :=
  ∃ ty size whole, d.type = .ok ty ∧ ty.byteSize = .ok size ∧ T.byteSize = .ok whole ∧
    whole.toInt = T.bytes ∧ ∀ as, d.Accesses as → ∃ ds, T.Reaches as ds ty ∧
      0 ≤ ds.sum ∧ ds.sum + size.toInt ≤ whole.toInt ∧
      (∀ n ∈ ds, Word.InRange n) ∧ ∀ k, Word.InRange (ds.take k).sum

/-- Where the accesses of two designators of one variable, of type `T`, diverge, the bytes that they
denote are disjoint: one part ends before the other one begins. -/
def Apart (T : Ty) (d d' : Designator) : Prop :=
  ∀ as as' ds ds' ty ty' size size', d.Accesses as → d'.Accesses as' → Access.Diverge as as' →
    T.Reaches as ds ty → T.Reaches as' ds' ty' →
    ty.byteSize = .ok size → ty'.byteSize = .ok size' →
    ds.sum + size.toInt ≤ ds'.sum ∨ ds'.sum + size'.toInt ≤ ds.sum

theorem HasType.inside (hE : E.Fits) {d : Designator} {ty T : Ty} {ref : Bool}
    (h : d.HasType E ty) (hv : E.var? d.root = some (T, ref)) : d.Inside T := by
  have hT := hE _ _ _ hv
  obtain ⟨size, hsize, hs⟩ := Ty.byteSize_of_fits (h.fits hE)
  obtain ⟨whole, hwhole, hw⟩ := Ty.byteSize_of_fits hT
  refine ⟨ty, size, whole, h.type_eq, hsize, hwhole, hw, fun as has => ?_⟩
  obtain ⟨ds, hds⟩ := h.reaches hE hv has
  have hle := (hds.within hT).2
  exact ⟨ds, hds, hds.sum_nonneg hT, by omega, hds.inRange hT⟩

theorem apart (d d' : Designator) {T : Ty} (hT : T.Fits) : d.Apart T d' := by
  intro as as' ds ds' ty ty' size size' _ _ hdiv hds hds' hsize hsize'
  rw [(hds.fits hT).toInt_byteSize hsize, (hds'.fits hT).toInt_byteSize hsize']
  exact hds.disjoint hT hds' hdiv

/-- The address of what a designator denotes is the address of its variable, plus the distances for
indices within the bounds. -/
theorem locate_eq_add (hE : E.Fits) {div : Word → Word → Option Word} {A : Activation} {m : Memory}
    {T : Ty} {ref : Bool} : ∀ {d : Designator} {ty : Ty} {x : Word}, d.HasType E ty →
    E.var? d.root = some (T, ref) → d.locate div A m = .ok x →
    ∃ as ds start, d.Accesses as ∧ T.Reaches as ds ty ∧ A.addressOf m d.root = .ok start ∧
      x = start + Int32.ofInt ds.sum
  | _, _, x, @HasType.named _ p name ty ref h, hv, hx => by
    rw [Designator.root, h] at hv
    cases hv
    rw [locate] at hx
    exact ⟨[], [], x, .named, .here, hx, (Int32.add_zero x).symm⟩
  | _, _, x, @HasType.element _ p array index length base ha hi, hv, hx => by
    simp only [locate_element ha.type_eq, bind_eq_ok_iff] at hx
    obtain ⟨y, hy, i, -, hx⟩ := hx
    split at hx
    · next hin =>
      cases hx
      obtain ⟨as, ds, start, has, hds, hstart, rfl⟩ := locate_eq_add hE ha hv hy
      have hfits := (ha.fits hE).base
      obtain ⟨size, hsize, hvalue⟩ := Ty.byteSize_of_fits hfits
      refine ⟨_, _, start, .element ha.type_eq hin.1 hin.2 has,
        hds.append (.element hin.1 hin.2 hsize .here), hstart, ?_⟩
      simp [Int32.ofInt_add, Int32.ofInt_mul, Int32.add_assoc, ← Word.eq_ofNat hvalue]
    · cases hx
  | _, _, x, @HasType.field _ p record name fields ty hr hf, hv, hx => by
    simp only [locate_field hr.type_eq hf, bind_eq_ok_iff] at hx
    obtain ⟨y, hy, hx⟩ := hx
    cases hx
    obtain ⟨as, ds, start, has, hds, hstart, rfl⟩ := locate_eq_add hE hr hv hy
    obtain ⟨offset, ho⟩ := (hr.fits hE).exists_offset hf
    refine ⟨_, _, start, .field has, hds.append (.field hf ho .here), hstart, ?_⟩
    simp [Int32.ofInt_add, Int32.add_assoc, ← Word.eq_ofNat ((hr.fits hE).toInt_offset hf ho)]

end Designator

end Spl
