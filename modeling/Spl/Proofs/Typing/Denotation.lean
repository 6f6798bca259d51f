import Spl.Proofs.Typing.Exact

/-!
# What type expressions denote

Which type a type expression denotes, said apart from the pass that resolves it: names are looked
up, the fields of a record have distinct names, and lengths and sizes are words. A type expression
that denotes no type is refused.

* `TypeExpr.Denotes`: the denotation (`TypeExpr.Denotes.unique`, `TypeExpr.Denotes.fits`).
* `TypeExpr.annotate`: a type expression with the denoted types in its slots.
* `Types`, `Types.hide`, `Types.declare`: which types names denote.
* `TypeExpr.resolve_decides`: the pass finds the denotation and writes it into the slots.
-/

namespace Spl

/-- Which type a name denotes, if it denotes one. -/
abbrev Types := String → Option Ty

/-- The bytes of values of the given types. -/
def Ty.total : List Ty → Nat
  | [] => 0
  | ty :: tys => ty.bytes + total tys

namespace Types

/-- The names of the primitive types. -/
def primitive : Types := fun n => if n = "int" then some .int else if n = "bool" then some .bool
  else none

/-- A declared name denotes its type. -/
def declare (Γ : Types) (name : String) (ty : Ty) : Types :=
  fun n => if n = name then some ty else Γ n

/-- Names of variables denote no type. -/
def hide (Γ : Types) (names : List String) : Types := fun n => if n ∈ names then none else Γ n

/-- All types that have names fit. -/
def Fit (Γ : Types) : Prop := ∀ n ty, Γ n = some ty → ty.Fits

theorem fit_primitive : primitive.Fit := by
  intro n ty h
  unfold primitive at h
  split at h
  · cases h; trivial
  · split at h
    · cases h; trivial
    · cases h

theorem Fit.declare {Γ : Types} (h : Γ.Fit) {name : String} {ty : Ty} (hty : ty.Fits) :
    (Γ.declare name ty).Fit := by
  intro n ty' hn
  unfold Types.declare at hn
  split at hn
  · cases hn; exact hty
  · exact h n ty' hn

theorem Fit.hide {Γ : Types} (h : Γ.Fit) (names : List String) : (Γ.hide names).Fit := by
  intro n ty hn
  unfold Types.hide at hn
  split at hn
  · cases hn
  · exact h n ty hn

end Types

/-! ## The denotation -/

mutual

/-- A type expression denotes a type. -/
inductive TypeExpr.Denotes (Γ : Types) : TypeExpr → Ty → Prop
  | named {p : Position} {name : String} {slot : TypeSlot} {ty : Ty} :
      Γ name = some ty → TypeExpr.Denotes Γ (.named p name slot) ty
  | array {p : Position} {size : UInt32} {base : TypeExpr} {slot : TypeSlot} {ty : Ty} :
      base.Denotes Γ ty → size.toNat ≤ Word.maxNat → (Ty.array size ty).bytes ≤ Word.maxNat →
      TypeExpr.Denotes Γ (.array p size base slot) (.array size ty)
  | record {p : Position} {fields : List (Binding TypeExpr)} {slot : TypeSlot}
      {tys : List (String × Ty)} :
      (fields.map (·.name)).Nodup → TypeExpr.FieldsDenote Γ fields tys →
      (Ty.record tys).bytes ≤ Word.maxNat → TypeExpr.Denotes Γ (.record p fields slot) (.record tys)

/-- The fields of a record denote names with types. -/
inductive TypeExpr.FieldsDenote (Γ : Types) : List (Binding TypeExpr) → List (String × Ty) → Prop
  | nil : TypeExpr.FieldsDenote Γ [] []
  | cons {p : Position} {name : String} {e : TypeExpr} {ty : Ty}
      {fields : List (Binding TypeExpr)} {tys : List (String × Ty)} :
      e.Denotes Γ ty → TypeExpr.FieldsDenote Γ fields tys →
      TypeExpr.FieldsDenote Γ (⟨p, name, e⟩ :: fields) ((name, ty) :: tys)

end

namespace TypeExpr

mutual

/-- The type expression for a type, with the types of all its parts in their slots. -/
def annotate : TypeExpr → Ty → TypeExpr
  | .array p size base _, .array n ty => .array p size (base.annotate ty) ⟨some (.array n ty)⟩
  | .record p fields _, .record tys => .record p (annotateFields fields tys) ⟨some (.record tys)⟩
  | .named p name _, ty => .named p name ⟨some ty⟩
  | .array p size base _, ty => .array p size base ⟨some ty⟩
  | .record p fields _, ty => .record p fields ⟨some ty⟩

/-- The fields of a record for their types. -/
def annotateFields : List (Binding TypeExpr) → List (String × Ty) → List (Binding TypeExpr)
  | ⟨p, name, e⟩ :: fields, (_, ty) :: tys =>
    ⟨p, name, e.annotate ty⟩ :: annotateFields fields tys
  | fields, _ => fields

end

variable {Γ : Types}

mutual

/-- A type expression denotes one type at most. -/
theorem Denotes.unique : ∀ {e : TypeExpr} {ty ty' : Ty}, e.Denotes Γ ty → e.Denotes Γ ty' → ty = ty'
  | _, _, _, .named h, .named h' => Option.some.inj (h.symm.trans h')
  | _, _, _, .array h _ _, .array h' _ _ => by rw [h.unique h']
  | _, _, _, .record _ h _, .record _ h' _ => by rw [h.unique h']

theorem FieldsDenote.unique : ∀ {fields : List (Binding TypeExpr)} {tys tys' : List (String × Ty)},
    FieldsDenote Γ fields tys → FieldsDenote Γ fields tys' → tys = tys'
  | _, _, _, .nil, .nil => rfl
  | _, _, _, .cons h hs, .cons h' hs' => by rw [h.unique h', hs.unique hs']

end

mutual

/-- Denoted types fit. -/
theorem Denotes.fits (hΓ : Γ.Fit) : ∀ {e : TypeExpr} {ty : Ty}, e.Denotes Γ ty → ty.Fits
  | _, _, .named h => hΓ _ _ h
  | _, _, .array h hn hb => ⟨hn, h.fits hΓ, by simpa only [Ty.bytes] using hb⟩
  | _, _, .record _ h hb => ⟨h.fits hΓ, by simpa only [Ty.bytes] using hb⟩

theorem FieldsDenote.fits (hΓ : Γ.Fit) : ∀ {fields : List (Binding TypeExpr)}
    {tys : List (String × Ty)}, FieldsDenote Γ fields tys → Ty.FieldsFit tys
  | _, _, .nil => trivial
  | _, _, .cons h hs => ⟨h.fits hΓ, hs.fits hΓ⟩

end

end TypeExpr

/-! ## Resolution -/

/-- The type that a name denotes at a scope of a table. -/
def SymbolTable.types (t : SymbolTable) (scope : ScopeId) : Types := fun name =>
  match t.find? scope name with
  | some (.type ty) => some ty
  | _ => none

variable {t : SymbolTable} {scope : ScopeId}

theorem typeOfName_decides (p : Position) (name : String) :
    Decides (fun ty => t.types scope name = some ty) (fun _ => t.types scope name = none)
      (typeOfName t scope p name) := by
  unfold typeOfName SymbolTable.types
  cases t.find? scope name with
  | none => rfl
  | some e => cases e <;> rfl

theorem checkSize_decides (p : Position) (ty : Ty) :
    Decides (fun ty' => ty' = ty ∧ ty.Fits) (fun _ => ¬ty.Fits) (checkSize p ty) := by
  unfold checkSize
  by_cases h : ty.checkedByteSize.isSome = true
  · rw [if_pos h]
    exact ⟨rfl, Ty.isSome_checkedByteSize_iff.1 h⟩
  · rw [if_neg h]
    exact fun hf => h (Ty.isSome_checkedByteSize_iff.2 hf)

theorem checkFieldNames_decides {τ : Type} : ∀ (seen : List String) (fields : List (Binding τ)),
    Decides (fun _ => (fields.map (·.name)).Nodup ∧ ∀ f ∈ fields, f.name ∉ seen)
      (fun _ => ¬((fields.map (·.name)).Nodup ∧ ∀ f ∈ fields, f.name ∉ seen))
      (checkFieldNames seen fields)
  | _, [] => ⟨List.nodup_nil, fun _ h => nomatch h⟩
  | seen, f :: fields => by
    unfold checkFieldNames
    by_cases hf : f.name ∈ seen
    · rw [if_pos hf]
      exact fun h => h.2 f (.head _) hf
    · rw [if_neg hf]
      have hiff : ((fields.map (·.name)).Nodup ∧ ∀ g ∈ fields, g.name ∉ f.name :: seen) ↔
          ((f :: fields).map (·.name)).Nodup ∧ ∀ g ∈ f :: fields, g.name ∉ seen := by
        simp only [List.map_cons, List.nodup_cons, List.mem_map, List.mem_cons, not_or,
          forall_eq_or_imp]
        grind
      exact (checkFieldNames_decides (f.name :: seen) fields).mono (fun _ h => hiff.1 h)
        fun _ h hc => h (hiff.2 hc)

/-- A visit of a type expression finds its type and annotates it, or it denotes no type. -/
abbrev TypeExpr.Found (Γ : Types) (e : TypeExpr) (v : SemanticVisit TypeExpr Ty) : Prop :=
  v.Decides (fun e' ty => e.Denotes Γ ty ∧ e' = e.annotate ty) fun _ _ => ∀ ty, ¬e.Denotes Γ ty

namespace TypeExpr

mutual

/-- Resolving a fresh type expression finds the type that it denotes, if it denotes one. -/
theorem resolve_decides (hΓ : (t.types scope).Fit) : ∀ (e : TypeExpr), e.isFresh = true →
    e.Found (t.types scope) (e.resolve t scope)
  | .named p name slot, hs => by
    unfold resolve
    refine conclude_decides hs (typeOfName_decides p name) (fun ty h => ⟨.named h, rfl⟩)
      fun _ hnone ty h => ?_
    cases h with
    | named h => rw [hnone] at h; cases h
  | .array p size base slot, h => by
    simp only [isFresh, Bool.and_eq_true] at h
    unfold resolve
    refine (base.resolve_decides hΓ h.2).andThen (fun _ _ hno ty h => ?_) fun b bty hb => ?_
    · cases h with
      | array h _ _ => exact hno _ h
    obtain ⟨hb, rfl⟩ := hb
    refine conclude_decides h.1 (checkSize_decides p (.array size bty)) (fun ty hty => ?_)
      fun _ hnot ty h => hnot ?_
    · obtain ⟨rfl, hfit⟩ := hty
      exact ⟨.array hb hfit.length_le hfit.bytes_le, rfl⟩
    · have hfit := h.fits hΓ
      cases h with
      | array h _ _ =>
        cases h.unique hb
        exact hfit
  | .record p fields slot, h => by
    simp only [isFresh, Bool.and_eq_true] at h
    unfold resolve
    have hn := checkFieldNames_decides [] fields
    cases hc : checkFieldNames [] fields with
    | error f =>
      rw [hc] at hn
      intro ty h
      cases h with
      | record hnodup _ _ => exact hn ⟨hnodup, fun _ _ => List.not_mem_nil⟩
    | ok _ =>
      rw [hc] at hn
      refine (resolveFields_decides hΓ fields h.2).andThen (fun _ _ hno ty h => ?_)
        fun fs tys hfs => ?_
      · cases h with
        | record _ h _ => exact hno _ h
      obtain ⟨hfs, rfl⟩ := hfs
      refine conclude_decides h.1 (checkSize_decides p (.record tys)) (fun ty hty => ?_)
        fun _ hnot ty h => hnot ?_
      · obtain ⟨rfl, hfit⟩ := hty
        exact ⟨.record hn.1 hfs hfit.bytes_le, rfl⟩
      · have hfit := h.fits hΓ
        cases h with
        | record _ h _ =>
          cases h.unique hfs
          exact hfit

theorem resolveFields_decides (hΓ : (t.types scope).Fit) :
    ∀ (fields : List (Binding TypeExpr)), fieldsFresh fields = true →
      (resolveFields t scope fields).Decides
        (fun fs tys => FieldsDenote (t.types scope) fields tys ∧ fs = annotateFields fields tys)
        fun _ _ => ∀ tys, ¬FieldsDenote (t.types scope) fields tys
  | [], _ => ⟨.nil, rfl⟩
  | ⟨p, name, e⟩ :: fields, h => by
    simp only [fieldsFresh, Bool.and_eq_true] at h
    unfold resolveFields
    refine (e.resolve_decides hΓ h.1).andThen (fun _ _ hno tys h => ?_) fun e' ty he => ?_
    · cases h with
      | cons h _ => exact hno _ h
    obtain ⟨he, rfl⟩ := he
    refine .map (.mapTree ((resolveFields_decides hΓ fields h.2).mono ?_ ?_))
    · intro fs tys hfs
      obtain ⟨hfs, rfl⟩ := hfs
      exact ⟨.cons he hfs, rfl⟩
    · intro _ _ hno tys h
      cases h with
      | cons _ h => exact hno _ h

end

end TypeExpr

end Spl
