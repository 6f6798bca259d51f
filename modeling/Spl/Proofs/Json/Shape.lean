import Mathlib.Data.List.Forall2
import Mathlib.Data.List.Nodup
import Spl.Json.Shape

/-!
# Spellings of forms

A form with parts may be written as an object or as an array, and some of its parts may be left out.
A `Part` says how one part may be written; a `Form` is any way to write them all.

* `Json.Part`, `Json.Form`, `Json.Kind`: the ways to write a form.
* `Form.exists_parts`, `Kind.exists_parts`: the parts are found however a form is written.
* `required?_eq`, `optional?_eq`, `elements?_map`: a part that is found is read.
-/

namespace Spl

namespace Json

/-! ## Depths -/

theorem depth_le_depthOfFields {f : String × Json} : ∀ {fs : List (String × Json)}, f ∈ fs →
    f.2.depth ≤ depthOfFields fs
  | (_, _) :: _, h => by
    rcases List.mem_cons.1 h with rfl | h
    · exact Nat.le_max_left _ _
    · exact Nat.le_trans (depth_le_depthOfFields h) (Nat.le_max_right _ _)

/-! ## Forms -/

/-- A part of a form: its name, how its value may be written, and whether it may be left out. -/
structure Part where
  name : String
  spells : Json → Prop
  mayLack : Prop := False

/-- The fields of an object, one for each part in order, without some that may be left out. -/
inductive Fields : List Part → List (String × Json) → Prop
  | nil : Fields [] []
  | keep {part : Part} {parts : List Part} {v : Json} {fs : List (String × Json)}
      (hv : part.spells v) (h : Fields parts fs) : Fields (part :: parts) ((part.name, v) :: fs)
  | drop {part : Part} {parts : List Part} {fs : List (String × Json)}
      (hlack : part.mayLack) (h : Fields parts fs) : Fields (part :: parts) fs

/-- The elements of an array, one for each part in order, perhaps without the last ones. -/
inductive Elements : List Part → List Json → Prop
  | stop {parts : List Part} (hlack : ∀ part ∈ parts, part.mayLack) : Elements parts []
  | keep {part : Part} {parts : List Part} {v : Json} {vs : List Json}
      (hv : part.spells v) (h : Elements parts vs) : Elements (part :: parts) (v :: vs)

/-- A way to write a form with the given parts: as an object, whose fields may be in any order and
may be joined by fields that no part has, or as an array. -/
inductive Form (parts : List Part) : Json → Prop
  | object {fs unknown all : List (String × Json)} (h : Fields parts fs)
      (hunknown : ∀ f ∈ unknown, f.1 ∉ parts.map Part.name) (hall : all.Perm (fs ++ unknown)) :
      Form parts (.object all)
  | array {vs : List Json} (h : Elements parts vs) : Form parts (.array vs)

/-- An object with a field for each part, in order. -/
theorem Form.full {parts : List Part} {fs : List (String × Json)} (h : Fields parts fs) :
    Form parts (.object fs) := .object h (List.forall_mem_nil _) (by rw [List.append_nil])

/-- A way to write a form of the kind `tag` with the given parts. -/
def Kind (tag : String) (parts : List Part) (v : Json) : Prop :=
  ∃ body, v = .object [(tag, body)] ∧ Form parts body

/-- What is found of a part, in the nesting that is left, if it is written as it may be. -/
def Part.Found (levels : Nat) (part : Part) : Option Json → Prop
  | none => part.mayLack
  | some v => part.spells v ∧ v.depth ≤ levels

/-! ## Finding the parts -/

theorem lookup_eq_head? (fs : List (String × Json)) (name : String) :
    fs.lookup name = (fs.filter (·.1 = name)).head?.map Prod.snd := by
  induction fs with
  | nil => rfl
  | cons f fs ih =>
    obtain ⟨key, v⟩ := f
    by_cases hname : key = name
    · subst hname
      rw [List.lookup_cons_self, List.filter_cons_of_pos (by simp)]
      rfl
    · rw [List.filter_cons_of_neg (by simpa using hname), ← ih, List.lookup_cons,
        beq_false_of_ne (Ne.symm hname)]

section

variable {parts : List Part} {fs : List (String × Json)} {levels : Nat}

theorem Fields.filter_eq_nil (h : Fields parts fs) {name : String}
    (hname : name ∉ parts.map Part.name) : fs.filter (·.1 = name) = [] := by
  induction h with
  | nil => rfl
  | keep hv h ih =>
    rw [List.map_cons, List.mem_cons, not_or] at hname
    rw [List.filter_cons_of_neg (by simpa using Ne.symm hname.1)]
    exact ih hname.2
  | drop hlack h ih => exact ih fun hmem => hname (.tail _ hmem)

/-- Each part has one field, or none if it may be left out. -/
theorem Fields.filter_eq (h : Fields parts fs) (hnames : (parts.map Part.name).Nodup) :
    ∀ part ∈ parts, (∃ v, part.spells v ∧ fs.filter (·.1 = part.name) = [(part.name, v)]) ∨
      part.mayLack ∧ fs.filter (·.1 = part.name) = [] := by
  induction h with
  | nil => nofun
  | @keep first parts v fs hv h ih =>
    obtain ⟨hnew, hnames⟩ := List.nodup_cons.1 hnames
    refine List.forall_mem_cons.2 ⟨.inl ⟨_, hv, ?_⟩, fun part hpart => ?_⟩
    · rw [List.filter_cons_of_pos (by simp), h.filter_eq_nil hnew]
    · have hne : first.name ≠ part.name := fun heq => hnew (heq ▸ List.mem_map_of_mem hpart)
      rw [List.filter_cons_of_neg (by simpa using hne)]
      exact ih hnames part hpart
  | drop hlack h ih =>
    obtain ⟨hnew, hnames⟩ := List.nodup_cons.1 hnames
    exact List.forall_mem_cons.2 ⟨.inr ⟨hlack, h.filter_eq_nil hnew⟩, ih hnames⟩

/-- The fields of an object are found, whatever their order, beside fields that no part has. -/
theorem Fields.found {unknown all : List (String × Json)} (h : Fields parts fs)
    (hnames : (parts.map Part.name).Nodup)
    (hunknown : ∀ f ∈ unknown, f.1 ∉ parts.map Part.name) (hall : all.Perm (fs ++ unknown))
    (hd : depthOfFields all ≤ levels) :
    ∀ part ∈ parts, (all.filter (·.1 = part.name)).length ≤ 1 ∧
      part.Found levels (all.lookup part.name) := by
  intro part hpart
  have hnone : unknown.filter (·.1 = part.name) = [] := by
    rw [List.filter_eq_nil_iff]
    intro f hf hname
    exact hunknown f hf (of_decide_eq_true hname ▸ List.mem_map_of_mem hpart)
  have hperm := hall.filter (·.1 = part.name)
  rw [List.filter_append, hnone, List.append_nil] at hperm
  rw [lookup_eq_head?]
  rcases h.filter_eq hnames part hpart with ⟨v, hv, hone⟩ | ⟨hlack, hone⟩
  · rw [hone, List.perm_singleton] at hperm
    have hmem : (part.name, v) ∈ all := by
      have : (part.name, v) ∈ all.filter (·.1 = part.name) := hperm ▸ .head _
      exact List.mem_of_mem_filter this
    rw [hperm]
    exact ⟨Nat.le_refl 1, hv, Nat.le_trans (depth_le_depthOfFields hmem) hd⟩
  · rw [hone] at hperm
    rw [hperm.eq_nil]
    exact ⟨Nat.zero_le 1, hlack⟩

/-- The elements of an array are found, and the parts behind them may be left out. -/
theorem Elements.found {vs : List Json} (h : Elements parts vs)
    (hd : depthOfElements vs ≤ levels) :
    vs.length ≤ parts.length ∧ List.Forall₂ (Part.Found levels) parts
      (vs.map some ++ List.replicate (parts.length - vs.length) none) := by
  induction h with
  | @stop parts hlack =>
    refine ⟨Nat.zero_le _, ?_⟩
    rw [List.map_nil, List.nil_append]
    induction parts with
    | nil => exact .nil
    | cons part parts ih =>
      obtain ⟨hpart, hparts⟩ := List.forall_mem_cons.1 hlack
      exact .cons hpart (ih hparts)
  | @keep part parts v vs hv h ih =>
    obtain ⟨hv', hvs⟩ := Nat.max_le.1 hd
    obtain ⟨hle, hfound⟩ := ih hvs
    refine ⟨Nat.succ_le_succ hle, ?_⟩
    rw [List.length_cons, List.length_cons, Nat.add_sub_add_right]
    exact .cons ⟨hv, hv'⟩ hfound

/-- The parts of a form are found, however it is written. -/
theorem Form.exists_parts {v : Json} (h : Form parts v) (names : List String)
    (hparts : parts.map Part.name = names) (hnames : names.Nodup) (hd : v.depth ≤ levels + 1) :
    ∃ found, v.parts? names = some found ∧ List.Forall₂ (Part.Found levels) parts found := by
  subst hparts
  cases h with
  | @object fs unknown all h hunknown hall =>
    have hfound := h.found hnames hunknown hall (Nat.le_of_succ_le_succ hd)
    refine ⟨(parts.map Part.name).map fun name => all.lookup name, if_pos ?_, ?_⟩
    · rw [List.all_eq_true, List.forall_mem_map]
      exact fun part hpart => decide_eq_true (hfound part hpart).1
    · rw [List.map_map, List.forall₂_map_right_iff, List.forall₂_same]
      exact fun part hpart => (hfound part hpart).2
  | @array vs h =>
    obtain ⟨hle, hfound⟩ := h.found (Nat.le_of_succ_le_succ hd)
    refine ⟨_, if_pos ?_, ?_⟩
    · rwa [List.length_map]
    · rwa [List.length_map]

theorem Form.depth_pos {v : Json} (h : Form parts v) : 1 ≤ v.depth := by
  cases h with
  | object | array => exact Nat.le_add_left 1 _

theorem Kind.exists_body {tag : String} {v : Json} (h : Kind tag parts v)
    (hd : v.depth ≤ levels) :
    ∃ inner body, levels = inner + 2 ∧ v = .object [(tag, body)] ∧ Form parts body ∧
      body.depth ≤ inner + 1 := by
  obtain ⟨body, rfl, hform⟩ := h
  have hbody : body.depth + 1 ≤ levels := Nat.le_trans
    (Nat.succ_le_succ (depth_le_depthOfFields (f := (tag, body)) (.head _))) hd
  have hpos := hform.depth_pos
  obtain ⟨inner, rfl⟩ : ∃ inner, levels = inner + 2 := ⟨levels - 2, by omega⟩
  exact ⟨inner, body, rfl, rfl, hform, Nat.le_of_succ_le_succ hbody⟩

/-- The parts of a form of some kind are found, however it is written. -/
theorem Kind.exists_parts {tag : String} {v : Json} (h : Kind tag parts v) (names : List String)
    (hparts : parts.map Part.name = names) (hnames : names.Nodup) (hd : v.depth ≤ levels) :
    ∃ inner body found, levels = inner + 2 ∧ v = .object [(tag, body)] ∧
      body.parts? names = some found ∧ List.Forall₂ (Part.Found inner) parts found := by
  obtain ⟨inner, body, rfl, rfl, hform, hbody⟩ := h.exists_body hd
  obtain ⟨found, hfound⟩ := hform.exists_parts names hparts hnames hbody
  exact ⟨inner, body, found, rfl, rfl, hfound⟩

end

/-! ## Reading the parts -/

/-- A text. -/
def text (s : String) (v : Json) : Prop := v = .string s

/-- An integer. -/
def integer (n : Int) (v : Json) : Prop := v = .int n

/-- A kind without parts: its name alone, or with a `null` for the parts. -/
inductive Name (tag : String) : Json → Prop
  | alone : Name tag (.string tag)
  | withNull : Name tag (.object [(tag, .null)])

/-- An array, each element of which spells an element of a list. -/
def ListOf {α : Type} (Spelled : α → Json → Prop) (as : List α) (v : Json) : Prop :=
  ∃ vs, v = .array vs ∧ List.Forall₂ Spelled as vs

/-- A part that must be written. -/
def required (name : String) (spells : Json → Prop) : Part := { name, spells }

section

variable {α : Type} {read? : Json → Option α} {name : String} {spells : Json → Prop}
  {levels : Nat} {found : Option Json}

theorem required?_eq (h : (required name spells).Found levels found) {a : α}
    (hread : ∀ v, spells v → v.depth ≤ levels → read? v = some a) :
    required? read? found = some a := by
  cases found with
  | none => exact h.elim
  | some v => exact hread v h.1 h.2

theorem optional?_eq {part : Part} (h : part.Found levels found) {a default : α}
    (hdefault : part.mayLack → a = default)
    (hread : ∀ v, part.spells v → v.depth ≤ levels → read? v = some a) :
    optional? default read? found = some a := by
  cases found with
  | none => exact congrArg some (hdefault h).symm
  | some v => exact hread v h.1 h.2

theorem required?_text {s : String} (h : (required name (text s)).Found levels found) :
    required? string? found = some s :=
  required?_eq h fun _ hv _ => congrArg string? hv

theorem uint32?_toNat (n : UInt32) : uint32? (.int n.toNat) = some n := by
  have hlt := n.toNat_lt
  unfold uint32?
  dsimp only
  rw [Int.toNat_natCast, if_pos ⟨Int.natCast_nonneg _, hlt⟩, UInt32.ofNat_toNat]

theorem required?_uint32 {n : UInt32} (h : (required name (integer n.toNat)).Found levels found) :
    required? uint32? found = some n :=
  required?_eq h fun _ hv _ => (congrArg uint32? hv).trans (uint32?_toNat n)

theorem tag?_eq {tag : String} {v : Json} (h : Name tag v) (hd : v.depth ≤ levels) :
    v.tag? levels = some tag := by
  cases h with
  | alone => cases levels <;> rfl
  | withNull =>
    cases levels with
    | zero => cases hd
    | succ levels => rfl

theorem elements?_eq {as : List α} {vs : List Json}
    (h : List.Forall₂ (fun a v => read? v = some a) as vs) :
    elements? read? (.array vs) = some as := by
  show vs.mapM read? = some as
  induction h with
  | nil => rfl
  | cons ha _ ih =>
    rw [List.mapM_cons, ha, ih]
    rfl

/-- A list that must be written is an array one level down. -/
theorem exists_array {P : List Json → Prop}
    (h : (required name fun v => ∃ vs, v = .array vs ∧ P vs).Found levels found) :
    ∃ inner vs, levels = inner + 1 ∧ found = some (.array vs) ∧ P vs ∧
      depthOfElements vs ≤ inner := by
  cases found with
  | none => exact h.elim
  | some v =>
    obtain ⟨⟨vs, rfl, hvs⟩, hd⟩ := h
    cases levels with
    | zero => cases hd
    | succ inner => exact ⟨inner, vs, rfl, rfl, hvs, Nat.le_of_succ_le_succ hd⟩

/-- The elements of an array are read one by one if each spelling of each of them is. -/
theorem elements?_map {β : Type} {Spelled : α → Json → Prop} {as : List α} {vs : List Json}
    {read? : Json → Option β} {f : α → β} (h : List.Forall₂ Spelled as vs)
    (hd : depthOfElements vs ≤ levels)
    (hread : ∀ a ∈ as, ∀ v, Spelled a v → v.depth ≤ levels → read? v = some (f a)) :
    elements? read? (.array vs) = some (as.map f) := by
  refine elements?_eq ?_
  induction h with
  | nil => exact .nil
  | cons ha _ ih =>
    obtain ⟨hv, hvs⟩ := Nat.max_le.1 hd
    obtain ⟨ha', has⟩ := List.forall_mem_cons.1 hread
    exact .cons (ha' _ ha hv) (ih hvs has)

end

end Json

end Spl
