import Mathlib.Data.List.Perm.Basic
import Spl.Frame.Diagram
import Spl.Proofs.Code.FrameAdds
import Spl.Proofs.Code.Programs
import Spl.Proofs.Frame.Tiling

/-!
# Diagrams of placed procedures

The diagram of a placed procedure shows every parameter and every local variable once, at the
distance at which its body reaches it; and in a frame that is no leaf frame the two linkage words
and the words of the outgoing area. From the top to the bottom the addresses do not increase.

* `Place.operand`: the base and the distance that a place names.
* `sortByKey_eq_ok`: what sorting leaves.
* `Lists`: rows that show variables.
* `Descends`: rows whose heights above the stack pointer do not increase.
* `parameterRows_lists`, `variableRows_lists`, `argumentRows`: the rows of a diagram.
-/

namespace Spl

open SymbolTable

/-! ## Places -/

/-- The register of a base. -/
def Base.register : Base → Reg
  | .framePointer => .framePointer
  | .stackPointer => .stackPointer

/-- How far a base lies above the stack pointer in a frame of the given size. -/
def Base.height (size : Int) : Base → Int
  | .framePointer => size
  | .stackPointer => 0

/-- The base of a place, and how far the place lies above it. -/
def Place.operand : Place → Option (Base × Int)
  | .above base (some distance) => some (base, distance.toInt)
  | .below base (some distance) => some (base, -distance.toInt)
  | .above _ none | .below _ none | .inconsistent .. => none

/-- How far a row lies above the stack pointer, if a place or a mark stands beside it. -/
def Row.height (size : Int) : Row → Option Int
  | .cell _ (some place) => place.operand.map fun q => q.1.height size + q.2
  | .line (some .beginning) => some size
  | .line (some (.leafBeginning distance)) => some distance.toInt
  | .line (some .ending) => some 0
  | .cell _ none | .ellipsis | .line none | .line (some .outgoingArea)
  | .line (some .leafEnding) => none

/-- What lies in a row. -/
def Row.content? : Row → Option Cell
  | .cell content _ => some content
  | .ellipsis | .line _ => none

/-! ## Lists -/

/-- Sorting leaves the same elements, in the order of their keys. -/
theorem sortByKey_eq_ok {α : Type} {key : α → Except Fault Word} {xs ys : List α}
    (h : sortByKey key xs = .ok ys) : ys.Perm xs ∧
      ys.Pairwise fun x y => ∃ i j, key x = .ok i ∧ key y = .ok j ∧ i ≤ j := by
  unfold sortByKey at h
  split at h
  · next hlen =>
    cases h
    refine ⟨.refl _, ?_⟩
    match xs, hlen with
    | [], _ => exact .nil
    | [x], _ => exact List.pairwise_singleton _ _
  · obtain ⟨keyed, hkeyed, h⟩ := bind_eq_ok_iff.1 h
    cases h
    have hkeys : List.Forall₂ (fun x (k : Word × α) => key x = .ok k.1 ∧ k.2 = x) xs keyed :=
      (forall₂_of_mapM_eq_ok hkeyed).imp fun x k hk => by
        obtain ⟨i, hi, hk⟩ := bind_eq_ok_iff.1 hk
        cases hk
        exact ⟨hi, rfl⟩
    have hmap : List.Forall₂ (· = ·) (keyed.map (·.2)) xs :=
      List.forall₂_map_left_iff.2 (hkeys.flip.imp fun _ _ hk => hk.2)
    rw [List.forall₂_eq_eq_eq] at hmap
    have hkey : ∀ k ∈ keyed, key k.2 = .ok k.1 := fun k hk => by
      obtain ⟨x, hx, rfl⟩ := exists_of_forall₂_right hkeys hk
      exact hx
    have hperm := List.mergeSort_perm keyed fun a b => decide (a.1 ≤ b.1)
    have hsorted : (keyed.mergeSort fun a b => decide (a.1 ≤ b.1)).Pairwise
        fun a b => decide (a.1 ≤ b.1) = true := List.pairwise_mergeSort
      (fun a b c hab hbc => by simpa using Int32.le_trans (by simpa using hab) (by simpa using hbc))
      (fun a b => by simpa using Int32.le_total a.1 b.1) keyed
    refine ⟨hmap ▸ hperm.map (·.2), List.pairwise_map.2 ?_⟩
    refine hsorted.imp_of_mem fun ha hb hle => ?_
    exact ⟨_, _, hkey _ (hperm.mem_iff.1 ha), hkey _ (hperm.mem_iff.1 hb), of_decide_eq_true hle⟩

/-- Sorting the images of elements leaves images of the same elements. -/
theorem exists_of_sortByKey_map {α β : Type} {key : α → Except Fault Word} {f : β → α}
    {zs : List β} {xs : List α} (h : sortByKey key (zs.map f) = .ok xs) :
    ∃ ys : List β, xs = ys.map f ∧ ys.Perm zs ∧
      ys.Pairwise fun y z => ∃ i j, key (f y) = .ok i ∧ key (f z) = .ok j ∧ i ≤ j := by
  obtain ⟨hperm, hsorted⟩ := sortByKey_eq_ok h
  have hzs : List.Forall₂ (fun x z => x = f z) (zs.map f) zs :=
    List.forall₂_map_left_iff.2 (List.forall₂_refl zs)
  obtain ⟨ys, hys, hp⟩ := List.perm_comp_forall₂ hperm hzs
  have heq := List.forall₂_map_right_iff.2 hys
  rw [List.forall₂_eq_eq_eq] at heq
  subst heq
  exact ⟨ys, rfl, hp, List.pairwise_map.1 hsorted⟩

/-- A list of which each element is an image consists of images. -/
theorem exists_map_of_forall₂ {α β γ : Type} {R : α → γ → Prop} {f : γ → β} {xs : List α}
    {ys : List β} (h : List.Forall₂ (fun x y => ∃ z, y = f z ∧ R x z) xs ys) :
    ∃ zs, ys = zs.map f ∧ List.Forall₂ R xs zs := by
  induction h with
  | nil => exact ⟨[], rfl, .nil⟩
  | cons hxy _ ih =>
    obtain ⟨z, rfl, hz⟩ := hxy
    obtain ⟨zs, rfl, hzs⟩ := ih
    exact ⟨z :: zs, rfl, .cons hz hzs⟩

/-- What is taken from each element of a list, by what stands beside it. -/
theorem filterMap_eq_map {α β γ : Type} {R : α → β → Prop} {f : β → Option γ} {g : α → γ}
    {xs : List α} {ys : List β} (h : List.Forall₂ R xs ys) (hf : ∀ x y, R x y → f y = some (g x)) :
    ys.filterMap f = xs.map g := by
  induction h with
  | nil => rfl
  | cons hxy _ ih => rw [List.filterMap_cons_some (hf _ _ hxy), ih, List.map_cons]

/-! ## Bases -/

variable {leaves : Bool} {t : SymbolTable} {d : ProcDecl} {P : Procedure} {size : Word}
  {rows : List Row}

/-- The base from which the variables of a procedure are shown. -/
def Procedure.base (P : Procedure) : Base :=
  if P.layout.isLeaf then .stackPointer else .framePointer

theorem shownFrom_eq (hs : P.layout.frameSize = .ok (some size)) :
    shownFrom P = .ok (P.base, (P.addressing size).bias) := by
  unfold shownFrom Procedure.base Procedure.addressing
  rw [hs]
  cases P.layout.isLeaf <;> rfl

theorem Procedure.base_register (P : Procedure) (size : Word) :
    P.base.register = (P.addressing size).base := by
  unfold base addressing
  cases P.layout.isLeaf <;> rfl

/-- The variables are shown from the frame pointer or as far above the stack pointer as it lies. -/
theorem Procedure.base_height (P : Procedure) (size : Word) :
    P.base.height size.toInt + (P.addressing size).bias.toInt = size.toInt := by
  unfold base addressing
  cases P.layout.isLeaf with
  | true => exact Int.zero_add _
  | false => exact Int.add_zero _

/-! ## Variables -/

theorem biased_some_eq_ok {bias w : Word} {r : Option Word} (h : biased bias (some w) = .ok r) :
    ∃ s, r = some s ∧ bias.sum w = .ok s := by
  obtain ⟨s, hs, h⟩ := bind_eq_ok_iff.1 h
  cases h
  refine ⟨s, rfl, Word.sum_eq_ok_iff.2 ?_⟩
  rw [Word.sum_eq_ok_iff.1 hs, Int.add_comm]

theorem negated_some_eq_ok {w : Word} {r : Option Word} (h : negated (some w) = .ok r) :
    ∃ s, r = some s ∧ s.toInt = -w.toInt := by
  obtain ⟨s, hs, h⟩ := bind_eq_ok_iff.1 h
  cases h
  exact ⟨s, rfl, Word.negation_eq_ok_iff.1 hs⟩

/-- A variable is shown at the distance at which it is reached. -/
theorem SymbolTable.Declares.reaches (hP : t.Declares d P) {name : String} {v : Variable}
    {w s : Word} (hv : t.local? P.localScope name = some v) (ho : v.offset = some w)
    (hs : (P.addressing size).bias.sum w = .ok s) : (P.addressing size).Reaches t name s := by
  refine ⟨v, w, ?_, ho, hs⟩
  rw [Procedure.addressing_scope, variableAt, hP.find?_local hv]
  rfl

/-- Rows that show variables: each of the names once, at the distance at which the variable is
reached, and from the largest distance to the smallest. -/
structure Lists (t : SymbolTable) (a : Addressing) (base : Base) (content : String → Cell)
    (names : List String) (ys : List (String × Word)) (rows : List Row) : Prop where
  perm : (ys.map Prod.fst).Perm names
  reaches : ∀ y ∈ ys, a.Reaches t y.1 y.2
  sorted : ys.Pairwise fun y z => z.2.toInt ≤ y.2.toInt
  shown : List.Forall₂ (fun y row => ∃ place, row = .cell (content y.1) (some place) ∧
    place.operand = some (base, y.2.toInt)) ys rows

/-- The names of variables, from variables paired with their distances. -/
theorem map_fst_of_forall₂ {α : Type} {R : α → String × Word → Prop} {f : α → String}
    {xs : List α} {zs : List (String × Word)}
    (h : List.Forall₂ (fun x z => z.1 = f x ∧ R x z) xs zs) :
    zs.map Prod.fst = xs.map f := by
  induction h with
  | nil => rfl
  | cons hz _ ih => rw [List.map_cons, List.map_cons, hz.1, ih]

/-- A key that is a negated distance orders distances downwards. -/
theorem le_of_negated {w w' i j : Word} {f : Option Word → Word} (hf : ∀ s, f (some s) = s)
    (hi : (do return f (← negated (some w))) = .ok i)
    (hj : (do return f (← negated (some w'))) = .ok j) (h : i ≤ j) : w'.toInt ≤ w.toInt := by
  obtain ⟨r, hr, hi⟩ := bind_eq_ok_iff.1 hi
  obtain ⟨r', hr', hj⟩ := bind_eq_ok_iff.1 hj
  obtain ⟨s, rfl, hs⟩ := negated_some_eq_ok hr
  obtain ⟨s', rfl, hs'⟩ := negated_some_eq_ok hr'
  cases hi
  cases hj
  rw [hf, hf, Int32.le_iff_toInt_le] at h
  omega

/-- Reached variables, sorted downwards by their distances: the names stay. -/
theorem exists_sorted_of_reaches {α β : Type} {a : Addressing} {g : α → String}
    {f : String × Word → β} {key : β → Except Fault Word} {xs : List α} {places sorted : List β}
    (hplaces : List.Forall₂ (fun x y => ∃ s, y = f (g x, s) ∧ a.Reaches t (g x) s) xs places)
    (hkey : ∀ y z i j, key (f y) = .ok i → key (f z) = .ok j → i ≤ j → z.2.toInt ≤ y.2.toInt)
    (hsorted : sortByKey key places = .ok sorted) :
    ∃ ys : List (String × Word), sorted = ys.map f ∧ (ys.map Prod.fst).Perm (xs.map g) ∧
      (∀ y ∈ ys, a.Reaches t y.1 y.2) ∧ ys.Pairwise fun y z => z.2.toInt ≤ y.2.toInt := by
  obtain ⟨zs, rfl, hzs⟩ := exists_map_of_forall₂ (f := f)
    (R := fun x z => z.1 = g x ∧ a.Reaches t z.1 z.2) <|
    hplaces.imp fun x y ⟨s, hy, hs⟩ => ⟨(g x, s), hy, rfl, hs⟩
  obtain ⟨ys, rfl, hperm, hsorted⟩ := exists_of_sortByKey_map hsorted
  refine ⟨ys, rfl, map_fst_of_forall₂ hzs ▸ hperm.map Prod.fst, fun y hy => ?_,
    hsorted.imp fun ⟨i, j, hi, hj, hij⟩ => hkey _ _ i j hi hj hij⟩
  obtain ⟨x, -, hreaches⟩ := exists_of_forall₂_right hzs (hperm.mem_iff.1 hy)
  exact hreaches

/-- The distance that is shown for a declared variable is the one at which it is reached. -/
theorem SymbolTable.Declares.reaches_of_biased (hP : t.Declares d P) {name : String}
    {v : Variable} {w : Word} {r : Option Word} (hv : t.local? P.localScope name = some v)
    (ho : v.offset = some w)
    (h : biased (P.addressing size).bias (ownOffset t P name) = .ok r) :
    ∃ s, r = some s ∧ biased (P.addressing size).bias (some w) = .ok (some s) ∧
      (P.addressing size).Reaches t name s := by
  have hoffset : ownOffset t P name = some w := by
    rw [ownOffset, hv]
    exact ho
  rw [hoffset] at h
  obtain ⟨s, rfl, hs⟩ := biased_some_eq_ok h
  exact ⟨s, rfl, h, hP.reaches hv ho hs⟩

theorem parameterRows_lists (hP : t.Declares d P) (hp : Placed leaves t d P)
    (hs : P.layout.frameSize = .ok (some size)) (h : parameterRows t d P = .ok rows) :
    ∃ ys, Lists t (P.addressing size) P.base .parameter (d.parameters.map (·.name)) ys rows := by
  have hzip : ∀ x ∈ d.parameters.zip P.parameters, ∃ v w,
      t.local? P.localScope x.1.name = some v ∧ v.offset = some w ∧ x.2.offset = some w := by
    intro x hx
    obtain ⟨i, hi⟩ := List.mem_iff_getElem?.1 hx
    obtain ⟨hd, hc⟩ := List.getElem?_zip_eq_some.1 hi
    obtain ⟨v, w, hv, ho, hw⟩ := hp.parameters i x.1 hd
    obtain ⟨w', ho', hw'⟩ := hp.signature i x.2 hc
    obtain rfl : w = w' := Int32.toInt_inj.1 (hw.trans hw'.symm)
    exact ⟨v, w, hv, ho, ho'⟩
  unfold parameterRows at h
  rw [shownFrom_eq hs] at h
  obtain ⟨⟨base, bias⟩, hshown, h⟩ := bind_eq_ok_iff.1 h
  cases hshown
  obtain ⟨places, hplaces, h⟩ := bind_eq_ok_iff.1 h
  obtain ⟨sorted, hsorted, h⟩ := bind_eq_ok_iff.1 h
  cases h
  -- the caller finds an argument where the procedure finds its parameter
  have hreached : List.Forall₂ (fun x y => ∃ s, y = (x.1.name, some s, some s) ∧
      (P.addressing size).Reaches t x.1.name s) (d.parameters.zip P.parameters) places := by
    refine ((List.forall₂_and_left _ _).2 ⟨hzip, forall₂_of_mapM_eq_ok hplaces⟩).imp ?_
    rintro x y ⟨⟨v, w, hv, ho, hc⟩, hy⟩
    obtain ⟨own, hown, hy⟩ := bind_eq_ok_iff.1 hy
    obtain ⟨callers, hcallers, hy⟩ := bind_eq_ok_iff.1 hy
    cases hy
    obtain ⟨s, rfl, hw, hreaches⟩ := hP.reaches_of_biased hv ho hown
    rw [hc, hw] at hcallers
    cases hcallers
    exact ⟨s, rfl, hreaches⟩
  obtain ⟨ys, rfl, hperm, hreaches, hsorted⟩ := exists_sorted_of_reaches
    (g := fun x : ParamDecl × Variable => x.1.name) (f := fun z => (z.1, some z.2, some z.2))
    hreached (fun _ _ _ _ hi hj hij =>
      le_of_negated (f := (·.getD Int32.minValue)) (fun _ => rfl) hi hj hij) hsorted
  have hnames : (d.parameters.zip P.parameters).map (fun x => x.1.name) =
      d.parameters.map (·.name) := by
    have hdeclared := List.map_fst_zip (Nat.le_of_eq hP.parameters.length_eq)
    rw [← congrArg (List.map fun b : ParamDecl => b.name) hdeclared, List.map_map]
    rfl
  refine ⟨ys, hnames ▸ hperm, hreaches, hsorted, ?_⟩
  rw [List.map_map, List.forall₂_map_right_iff]
  exact List.forall₂_same.2 fun y _ =>
    ⟨_, congrArg (fun q => Row.cell _ (some q)) (if_pos rfl), rfl⟩

theorem variableRows_lists (hP : t.Declares d P) (hp : Placed leaves t d P)
    (hs : P.layout.frameSize = .ok (some size)) (h : variableRows t d P = .ok rows) :
    ∃ ys, Lists t (P.addressing size) P.base .localVariable (d.locals.map (·.name)) ys rows := by
  have hlocal : ∀ b ∈ d.locals, ∃ v w, t.local? P.localScope b.name = some v ∧
      v.offset = some w := by
    intro b hb
    obtain ⟨i, hi⟩ := List.mem_iff_getElem?.1 hb
    obtain ⟨v, w, hv, ho, -⟩ := hp.locals i b hi
    exact ⟨v, w, hv, ho⟩
  unfold variableRows at h
  rw [shownFrom_eq hs] at h
  obtain ⟨⟨base, bias⟩, hshown, h⟩ := bind_eq_ok_iff.1 h
  cases hshown
  obtain ⟨places, hplaces, h⟩ := bind_eq_ok_iff.1 h
  obtain ⟨sorted, hsorted, h⟩ := bind_eq_ok_iff.1 h
  have hreached : List.Forall₂ (fun b y => ∃ s, y = (b.name, some s) ∧
      (P.addressing size).Reaches t b.name s) d.locals places := by
    refine ((List.forall₂_and_left _ _).2 ⟨hlocal, forall₂_of_mapM_eq_ok hplaces⟩).imp ?_
    rintro b y ⟨⟨v, w, hv, ho⟩, hy⟩
    obtain ⟨own, hown, hy⟩ := bind_eq_ok_iff.1 hy
    cases hy
    obtain ⟨s, rfl, -, hreaches⟩ := hP.reaches_of_biased hv ho hown
    exact ⟨s, rfl, hreaches⟩
  obtain ⟨ys, rfl, hperm, hreaches, hsorted⟩ := exists_sorted_of_reaches
    (g := fun b : Binding TypeExpr => b.name) (f := fun z => (z.1, some z.2)) hreached
    (fun _ _ _ _ hi hj hij => le_of_negated (f := (·.getD 0)) (fun _ => rfl) hi hj hij) hsorted
  refine ⟨ys, hperm, hreaches, hsorted, ?_⟩
  refine (List.forall₂_map_left_iff.1 (forall₂_of_mapM_eq_ok h)).imp fun y row hrow => ?_
  dsimp only at hrow
  unfold Procedure.base at hrow ⊢
  cases hl : P.layout.isLeaf with
  | true =>
    rw [hl] at hrow
    cases hrow
    exact ⟨_, rfl, rfl⟩
  | false =>
    rw [hl] at hrow
    obtain ⟨r, hr, hrow⟩ := bind_eq_ok_iff.1 hrow
    obtain ⟨s, rfl, hs⟩ := negated_some_eq_ok hr
    cases hrow
    refine ⟨_, rfl, ?_⟩
    simp only [Place.operand, hs]
    simp

/-! ## Heights -/

/-- The heights of rows do not increase, and lie between two others. -/
structure Descends (size hi lo : Int) (rows : List Row) : Prop where
  sorted : (rows.filterMap (Row.height size)).Pairwise fun h k => k ≤ h
  within : ∀ h ∈ rows.filterMap (Row.height size), lo ≤ h ∧ h ≤ hi

namespace Descends

variable {size hi mid lo k : Int} {rows rows' : List Row} {row : Row}

theorem nil : Descends size hi lo [] := ⟨.nil, fun _ h => nomatch h⟩

theorem skip (h : Descends size hi lo rows) (hrow : row.height size = none := by rfl) :
    Descends size hi lo (row :: rows) := by
  have heq : (row :: rows).filterMap (Row.height size) = rows.filterMap (Row.height size) :=
    List.filterMap_cons_none hrow
  exact ⟨heq ▸ h.sorted, heq ▸ h.within⟩

theorem cons (h : Descends size k lo rows) (hrow : row.height size = some k) (hlo : lo ≤ k)
    (hhi : k ≤ hi) : Descends size hi lo (row :: rows) := by
  have heq : (row :: rows).filterMap (Row.height size) = k :: rows.filterMap (Row.height size) :=
    List.filterMap_cons_some hrow
  constructor
  · rw [heq]
    exact .cons (fun h' hh' => (h.within h' hh').2) h.sorted
  · rw [heq]
    refine List.forall_mem_cons.2 ⟨⟨hlo, hhi⟩, fun h' hh' => ?_⟩
    obtain ⟨hlo', hhi'⟩ := h.within h' hh'
    exact ⟨hlo', Int.le_trans hhi' hhi⟩

theorem append (h : Descends size hi mid rows) (h' : Descends size mid lo rows') (hlo : lo ≤ mid)
    (hhi : mid ≤ hi) : Descends size hi lo (rows ++ rows') := by
  constructor
  · rw [List.filterMap_append, List.pairwise_append]
    exact ⟨h.sorted, h'.sorted, fun x hx y hy =>
      Int.le_trans (h'.within y hy).2 (h.within x hx).1⟩
  · rw [List.filterMap_append]
    refine List.forall_mem_append.2 ⟨fun x hx => ?_, fun x hx => ?_⟩
    · obtain ⟨hm, hx'⟩ := h.within x hx
      exact ⟨Int.le_trans hlo hm, hx'⟩
    · obtain ⟨hx', hm⟩ := h'.within x hx
      exact ⟨hx', Int.le_trans hm hhi⟩

/-- Lines without an address. -/
theorem of_lines (h : ∀ row ∈ rows, row.height size = none) : Descends size hi lo rows := by
  have heq : rows.filterMap (Row.height size) = [] := List.filterMap_eq_nil_iff.2 h
  exact ⟨heq ▸ .nil, heq ▸ fun _ hx => nomatch hx⟩

end Descends

namespace Lists

variable {a : Addressing} {base : Base} {content : String → Cell} {names : List String}
  {ys : List (String × Word)}

theorem contents (h : Lists t a base content names ys rows) :
    (rows.filterMap Row.content?).Perm (names.map content) := by
  have heq : rows.filterMap Row.content? = (ys.map Prod.fst).map content := by
    rw [List.map_map]
    refine filterMap_eq_map h.shown fun y row hrow => ?_
    obtain ⟨place, rfl, -⟩ := hrow
    rfl
  exact heq ▸ h.perm.map content

theorem descends {hi lo : Int} {n : Int} (h : Lists t a base content names ys rows)
    (hys : ∀ y ∈ ys, lo ≤ base.height n + y.2.toInt ∧ base.height n + y.2.toInt ≤ hi) :
    Descends n hi lo rows := by
  have heq : rows.filterMap (Row.height n) = ys.map fun y => base.height n + y.2.toInt := by
    refine filterMap_eq_map h.shown fun y row hrow => ?_
    obtain ⟨place, rfl, hplace⟩ := hrow
    exact congrArg (Option.map _) hplace
  constructor
  · rw [heq, List.pairwise_map]
    exact h.sorted.imp fun hle => Int.add_le_add_left hle _
  · rw [heq, List.forall_mem_map]
    exact hys

theorem exists_of_mem (h : Lists t a base content names ys rows) {c : Cell} {place : Option Place}
    (hmem : .cell c place ∈ rows) : ∃ y ∈ ys, c = content y.1 ∧ ∃ q, place = some q ∧
      q.operand = some (base, y.2.toInt) := by
  have hrows := (List.forall₂_and_left _ _).2 ⟨fun _ hy => hy, h.shown⟩
  obtain ⟨y, hy, q, heq, hq⟩ := exists_of_forall₂_right hrows hmem
  cases heq
  exact ⟨y, hy, rfl, q, rfl, hq⟩

/-- Each variable has its row. -/
theorem exists_row (h : Lists t a base content names ys rows) {name : String} (hn : name ∈ names)
    {w : Word} (hw : a.Reaches t name w) : ∃ place, .cell (content name) (some place) ∈ rows ∧
      place.operand = some (base, w.toInt) := by
  obtain ⟨y, hy, rfl⟩ := List.mem_map.1 (h.perm.mem_iff.2 hn)
  obtain rfl := hw.unique (h.reaches y hy)
  have hrows := (List.forall₂_and_left _ _).2 ⟨fun _ hr => hr, h.shown.flip⟩
  obtain ⟨row, hrow, place, rfl, hplace⟩ := exists_of_forall₂_right hrows hy
  exact ⟨place, hrow, hplace⟩

end Lists

/-- How far from the base a variable is reached. -/
theorem SymbolTable.Declares.toInt_of_reaches (hP : t.Declares d P) {name : String} {v : Variable}
    {w s : Word} (hv : t.local? P.localScope name = some v) (ho : v.offset = some w)
    (h : (P.addressing size).Reaches t name s) :
    P.base.height size.toInt + s.toInt = size.toInt + w.toInt := by
  obtain ⟨v', w', hv', ho', hs⟩ := h
  have hfound : variableAt t (P.addressing size).scope name = .ok v := by
    rw [Procedure.addressing_scope, variableAt, hP.find?_local hv]
    rfl
  obtain rfl : v' = v := Except.ok.inj (hv'.symm.trans hfound)
  obtain rfl : w' = w := Option.some.inj (ho'.symm.trans ho)
  have hbase := P.base_height size
  have hsum := Word.sum_eq_ok_iff.1 hs
  omega

/-! ## Below the variables -/

theorem argumentRows_descends {size : Int} : ∀ {n : Nat}, 4 * n ≤ Word.maxNat →
    Descends size (4 * n : Nat) 0 (argumentRows n)
  | 0, _ => .nil
  | n + 1, hn => by
    have hheight : (Row.cell (.argument (n + 1))
        (some (.above .stackPointer (some (Int32.ofNat (4 * n)))))).height size =
          some ((4 * n : Nat) : Int) := by
      rw [← Word.toInt_ofNat (by omega : 4 * n ≤ Word.maxNat)]
      exact congrArg some (Int.zero_add _)
    exact (argumentRows_descends (by omega)).cons hheight (by omega) (by omega)

theorem argumentRows_contents : ∀ n : Nat,
    (argumentRows n).filterMap Row.content? =
      ((List.range n).map fun i => .argument (i + 1)).reverse
  | 0 => rfl
  | n + 1 => by
    have hcell : (Row.cell (.argument (n + 1))
        (some (.above .stackPointer (some (Int32.ofNat (4 * n)))))).content? =
          some (.argument (n + 1)) := rfl
    rw [argumentRows, List.filterMap_cons_some hcell, argumentRows_contents n, List.range_succ,
      List.map_append, List.reverse_append]
    rfl

/-- The rows of an outgoing area of whole words. -/
theorem outgoingRows_words {n : Nat} (hn : 4 * n ≤ Word.maxNat) :
    outgoingRows (some (Int32.ofNat (4 * n))) =
      (if n = 0 then [] else [.line (some .outgoingArea)]) ++ argumentRows n := by
  have hvalue := Word.toInt_ofNat hn
  by_cases h0 : n = 0
  · subst h0
    rfl
  · have hne : Int32.ofNat (4 * n) ≠ 0 := fun heq => by
      have hzero : (0 : Word).toInt = 0 := rfl
      rw [heq, hzero] at hvalue
      omega
    have hwords : ((Int32.ofNat (4 * n)).toInt.tdiv 4).toNat = n := by
      rw [hvalue, Int.tdiv_eq_ediv_of_nonneg (by omega)]
      omega
    rw [outgoingRows, if_neg hne, if_neg h0, hwords]
    rfl

theorem linkageOffsets_eq_ok {layout : FrameLayout} {old ret : Word}
    (h : linkageOffsets layout = .ok (old, ret)) :
    layout.oldFramePointerOffset = .ok (some old) ∧
      layout.returnAddressOffset = .ok (some ret) := by
  obtain ⟨old', hold, h⟩ := bind_eq_ok_iff.1 h
  obtain ⟨ret', hret, h⟩ := bind_eq_ok_iff.1 h
  cases old' <;> cases ret' <;> cases h
  exact ⟨hold, hret⟩

/-- The size of a frame with linkage words, and their offsets. -/
theorem Placed.linkage_values {old ret : Word} (hP : t.Declares d P) (hp : Placed leaves t d P)
    (hs : P.layout.frameSize = .ok (some size)) (hl : P.layout.isLeaf = false)
    (hlink : linkageOffsets P.layout = .ok (old, ret)) :
    size.toInt = d.localBytes + (4 * d.longestCall : Nat) + 8 ∧
      old.toInt = (4 * d.longestCall : Nat) + 4 ∧ ret.toInt = -((d.localBytes : Int) + 8) := by
  obtain ⟨hold, hret⟩ := linkageOffsets_eq_ok hlink
  obtain ⟨locals, outgoing, old', ret', hlocals, houtgoing, hold', hret', htiles, -⟩ :=
    hp.layout_tiled hP size hl hs
  obtain rfl : old = old' := Option.some.inj (Except.ok.inj (hold.symm.trans hold'))
  obtain rfl : ret = ret' := Option.some.inj (Except.ok.inj (hret.symm.trans hret'))
  rw [hp.layout] at hlocals houtgoing
  cases hlocals
  cases houtgoing
  have hroom := hP.room
  have hlocals : (Int32.ofNat d.localBytes).toInt = d.localBytes := Word.toInt_ofNat (by omega)
  have houtgoing := Word.toInt_ofNat hp.outgoingRoom
  -- the ends of the areas meet
  obtain ⟨-, -, hra, -, hfp, -, hlo, -, -⟩ := htiles
  have hra : ret.toInt = -size.toInt + (Int32.ofNat (4 * d.longestCall)).toInt := hra
  have hfp : -size.toInt + old.toInt = ret.toInt + 4 := hfp
  have hlo : -(Int32.ofNat d.localBytes).toInt = -size.toInt + old.toInt + 4 := hlo
  omega

/-! ## Diagrams -/

/-- What the code of a procedure does at the place of a cell: for a variable it adds the distance to
the base, for a linkage word the code at the beginning stores a register there, and the words of the
outgoing area are numbered from the stack pointer upwards. -/
def Cell.Shows (t : SymbolTable) (a : Addressing) (entry : List Line) (base : Base) (n : Int) :
    Cell → Prop
  | .parameter name | .localVariable name =>
    ∃ distance : Word, distance.toInt = n ∧ a.AddsFor t name base.register distance
  | .oldFramePointer => ∃ offset : Word, offset.toInt = n ∧
    noted (.store .framePointer base.register offset) "save old frame pointer" ∈ entry
  | .returnAddress => ∃ offset : Word, offset.toInt = n ∧
    noted (.store .returnAddress base.register offset) "save return register" ∈ entry
  | .argument number => base = .stackPointer ∧ n + 4 = 4 * (number : Int)
  | .unknownArguments => False

/-- What lies in a frame below the variables, where the outgoing area has the given number of
words. -/
def linkageCells (isLeaf : Bool) (words : Nat) : List Cell :=
  if isLeaf then []
  else .oldFramePointer :: .returnAddress ::
    ((List.range words).map fun i => .argument (i + 1)).reverse

/-- Every cell has a known place, and the code does there what the row says. -/
def ShowsAll (t : SymbolTable) (a : Addressing) (entry : List Line) (rows : List Row) : Prop :=
  ∀ c place, .cell c place ∈ rows → ∃ q base n, place = some q ∧ q.operand = some (base, n) ∧
    c.Shows t a entry base n

namespace ShowsAll

variable {a : Addressing} {entry : List Line} {rows' : List Row}

/-- Rows without cells. -/
theorem of_lines (h : rows.filterMap Row.content? = []) : ShowsAll t a entry rows :=
  fun _ _ hmem => nomatch List.filterMap_eq_nil_iff.1 h _ hmem

theorem append (h : ShowsAll t a entry rows) (h' : ShowsAll t a entry rows') :
    ShowsAll t a entry (rows ++ rows') :=
  fun c place hmem => (List.mem_append.1 hmem).elim (h c place) (h' c place)

theorem cons {c : Cell} {q : Place} {base : Base} {n : Int} (h : ShowsAll t a entry rows)
    (hq : q.operand = some (base, n)) (hc : c.Shows t a entry base n) :
    ShowsAll t a entry (.cell c (some q) :: rows) := fun c' place hmem => by
  rcases List.mem_cons.1 hmem with heq | hmem
  · cases heq
    exact ⟨q, base, n, rfl, hq, hc⟩
  · exact h c' place hmem

end ShowsAll

theorem argumentRows_shows {a : Addressing} {entry : List Line} : ∀ {n : Nat},
    4 * n ≤ Word.maxNat → ShowsAll t a entry (argumentRows n)
  | 0, _ => .of_lines rfl
  | n + 1, hn => by
    have hvalue := Word.toInt_ofNat (by omega : 4 * n ≤ Word.maxNat)
    exact (argumentRows_shows (by omega)).cons rfl ⟨rfl, by omega⟩

theorem Lists.showsAll {content : String → Cell} {names : List String}
    {ys : List (String × Word)} {entry : List Line}
    (h : Lists t (P.addressing size) P.base content names ys rows)
    (hcontent : ∀ name, content name = .parameter name ∨ content name = .localVariable name) :
    ShowsAll t (P.addressing size) entry rows := fun c place hmem => by
  obtain ⟨y, hy, rfl, q, rfl, hq⟩ := h.exists_of_mem hmem
  have hadds := (h.reaches y hy).addsFor
  rw [← P.base_register] at hadds
  refine ⟨q, P.base, y.2.toInt, rfl, hq, ?_⟩
  rcases hcontent y.1 with hc | hc
  · rw [hc]
    exact ⟨y.2, rfl, hadds⟩
  · rw [hc]
    exact ⟨y.2, rfl, hadds⟩

/-- A line between two areas. -/
def Row.Divides (row : Row) : Prop := row = .line none ∨ row = .line (some .outgoingArea)

theorem Row.Divides.height_eq_none {row : Row} (h : row.Divides) (n : Int) :
    row.height n = none := by
  rcases h with rfl | rfl <;> rfl

theorem Row.Divides.content?_eq_none {row : Row} (h : row.Divides) : row.content? = none := by
  rcases h with rfl | rfl <;> rfl

/-- The rows of a frame with linkage words, below its local variables. -/
theorem lowerRows_eq_ok {old ret : Word} (hp : Placed leaves t d P)
    (hl : P.layout.isLeaf = false) (hlink : linkageOffsets P.layout = .ok (old, ret))
    (h : lowerRows d P = .ok rows) : ∃ above between, ∃ k : Word, k.toInt = -ret.toInt ∧
      (∀ row ∈ above, row.Divides) ∧ (∀ row ∈ between, row.Divides) ∧
      rows = above ++ .cell .oldFramePointer (some (.above .stackPointer (some old))) ::
        .cell .returnAddress (some (.below .framePointer (some k))) ::
          (between ++ (argumentRows d.longestCall ++ [.line (some .ending), .ellipsis])) := by
  obtain ⟨hold, hret⟩ := linkageOffsets_eq_ok hlink
  have houtgoing : P.layout.outgoingArea = some (Int32.ofNat (4 * d.longestCall)) := by
    rw [hp.layout]
    rfl
  unfold lowerRows at h
  rw [hl, if_neg Bool.false_ne_true, hold, hret, houtgoing, outgoingRows_words hp.outgoingRoom] at h
  obtain ⟨_, ⟨⟩, h⟩ := bind_eq_ok_iff.1 h
  obtain ⟨_, ⟨⟩, h⟩ := bind_eq_ok_iff.1 h
  obtain ⟨_, hneg, h⟩ := bind_eq_ok_iff.1 h
  obtain ⟨k, rfl, hk⟩ := negated_some_eq_ok hneg
  cases h
  refine ⟨if d.locals.isEmpty then [] else [.line none],
    if d.longestCall = 0 then [] else [.line (some .outgoingArea)], k, hk, ?_, ?_, by simp⟩
  · split
    · exact fun _ hr => nomatch hr
    · exact List.forall_mem_singleton.2 (.inl rfl)
  · split
    · exact fun _ hr => nomatch hr
    · exact List.forall_mem_singleton.2 (.inr rfl)

/-- A frame has room for its local variables. -/
theorem Placed.localBytes_le {entry : List Line} (hP : t.Declares d P) (hp : Placed leaves t d P)
    (hs : P.layout.frameSize = .ok (some size)) (hentry : EntryCode P.layout size entry) :
    (d.localBytes : Int) ≤ size.toInt := by
  cases hentry with
  | leaf hl =>
    rw [hp.layout] at hl hs
    rw [ProcDecl.frameSize_of_leaf hl] at hs
    cases hs
    have hroom := hP.room
    exact Int.le_of_eq (Word.toInt_ofNat (by omega)).symm
  | frame hl hlink =>
    obtain ⟨hsize, -, -⟩ := hp.linkage_values hP hs hl hlink
    omega

/-- The rows below the local variables: where they lie, what lies in them, and what the code at the
beginning stores there. -/
theorem lowerRows_shows {entry : List Line} (hP : t.Declares d P) (hp : Placed leaves t d P)
    (hs : P.layout.frameSize = .ok (some size)) (hentry : EntryCode P.layout size entry)
    (h : lowerRows d P = .ok rows) :
    Descends size.toInt (size.toInt - d.localBytes) 0 rows ∧
      rows.filterMap Row.content? = linkageCells P.layout.isLeaf d.longestCall ∧
      ShowsAll t (P.addressing size) entry rows := by
  cases hentry with
  | leaf hl =>
    unfold lowerRows at h
    rw [hl, if_pos rfl] at h
    cases h
    exact ⟨.skip .nil, by rw [hl]; rfl, .of_lines rfl⟩
  | @frame old ret hl hlink =>
    obtain ⟨hsize, hold, hret⟩ := hp.linkage_values hP hs hl hlink
    obtain ⟨above, between, k, hk, habove, hbetween, rfl⟩ := lowerRows_eq_ok hp hl hlink h
    have hroom := hp.outgoingRoom
    have hrule : ∀ {xs : List Row}, (∀ row ∈ xs, row.Divides) →
        xs.filterMap Row.content? = [] := fun hxs =>
      List.filterMap_eq_nil_iff.2 fun row hr => (hxs row hr).content?_eq_none
    refine ⟨?_, ?_, ?_⟩
    · have hends : Descends size.toInt 0 0 [.line (some .ending), .ellipsis] :=
        .cons (.skip .nil) rfl (Int.le_refl 0) (Int.le_refl 0)
      have hwords : Descends size.toInt (4 * d.longestCall : Nat) 0
          (between ++ (argumentRows d.longestCall ++ [.line (some .ending), .ellipsis])) :=
        (Descends.of_lines fun row hr => (hbetween row hr).height_eq_none _).append
          ((argumentRows_descends hroom).append hends (Int.le_refl 0) (by omega))
          (by omega) (Int.le_refl _)
      have hold' : Row.height size.toInt
          (.cell .oldFramePointer (some (.above .stackPointer (some old)))) = some old.toInt :=
        congrArg some (Int.zero_add _)
      have hret' : Row.height size.toInt
          (.cell .returnAddress (some (.below .framePointer (some k)))) =
            some ((4 * d.longestCall : Nat) : Int) :=
        congrArg some (by omega : size.toInt + -k.toInt = (4 * d.longestCall : Nat))
      have hlinkage :=
        (hwords.cons hret' (by omega) (by omega)).cons hold' (by omega) (Int.le_refl _)
      exact (Descends.of_lines fun row hr => (habove row hr).height_eq_none _).append hlinkage
        (by omega) (by omega)
    · rw [List.filterMap_append, hrule habove, hl]
      show .oldFramePointer :: .returnAddress ::
        (between ++ (argumentRows d.longestCall ++ _)).filterMap Row.content? = _
      rw [List.filterMap_append, hrule hbetween, List.filterMap_append, argumentRows_contents]
      simp [linkageCells, Row.content?]
    · refine (ShowsAll.of_lines (hrule habove)).append (.cons (.cons ?_ rfl ?_) rfl ?_)
      · exact (ShowsAll.of_lines (hrule hbetween)).append
          ((argumentRows_shows hroom).append (.of_lines rfl))
      · exact ⟨ret, by omega, .tail _ (.tail _ (.tail _ (.head _)))⟩
      · exact ⟨old, rfl, .tail _ (.head _)⟩

theorem diagram_eq_ok (hs : P.layout.frameSize = .ok (some size)) (h : diagram t d P = .ok rows) :
    ∃ ps vs ls mark, parameterRows t d P = .ok ps ∧ variableRows t d P = .ok vs ∧
      lowerRows d P = .ok ls ∧ (Row.line (some mark)).height size.toInt = some size.toInt ∧
      rows = .ellipsis :: (ps ++ .line (some mark) :: (vs ++ ls)) := by
  unfold diagram at h
  rw [shownFrom_eq hs] at h
  obtain ⟨ps, hps, h⟩ := bind_eq_ok_iff.1 h
  obtain ⟨_, ⟨⟩, h⟩ := bind_eq_ok_iff.1 h
  obtain ⟨vs, hvs, h⟩ := bind_eq_ok_iff.1 h
  obtain ⟨ls, hls, h⟩ := bind_eq_ok_iff.1 h
  cases h
  refine ⟨ps, vs, ls, if P.layout.isLeaf then .leafBeginning (P.addressing size).bias
    else .beginning, hps, hvs, hls, ?_, by simp⟩
  unfold Procedure.addressing
  cases P.layout.isLeaf <;> rfl

/-- The variable that a cell shows. -/
def Cell.variable? : Cell → Option String
  | .parameter name | .localVariable name => some name
  | .oldFramePointer | .returnAddress | .argument _ | .unknownArguments => none

theorem Cell.variable?_eq_none_of_mem_linkageCells {isLeaf : Bool} {words : Nat} {c : Cell}
    (h : c ∈ linkageCells isLeaf words) : c.variable? = none := by
  cases isLeaf with
  | true => cases h
  | false =>
    rcases List.mem_cons.1 h with rfl | h
    · rfl
    rcases List.mem_cons.1 h with rfl | h
    · rfl
    obtain ⟨i, -, rfl⟩ := List.mem_map.1 (List.mem_reverse.1 h)
    rfl

/-- A diagram tells the truth about the code of a procedure that begins with `entry` and has the
body `body`. -/
structure ProcDecl.Drawn (t : SymbolTable) (d : ProcDecl) (P : Procedure) (size : Word)
    (entry body : List Line) (rows : List Row) : Prop where
  /-- Every place is known, and the code does there what the row says. -/
  shows : ShowsAll t (P.addressing size) entry rows
  /-- The rows are those of the variables, of the linkage words and of the words of the outgoing
  area. -/
  contents : ∃ area words, P.layout.outgoingArea = some area ∧ area.toInt = 4 * (words : Nat) ∧
    (rows.filterMap Row.content?).Perm (d.parameters.map (.parameter ·.name) ++
      d.locals.map (.localVariable ·.name) ++ linkageCells P.layout.isLeaf words)
  /-- What the body adds to the base, once for every occurrence of a variable, stands in the row of
  the variable. -/
  uses : List.Forall₂ (fun name distance => ∃ c place, c.variable? = some name ∧
    .cell c (some place) ∈ rows ∧ place.operand = some (P.base, distance.toInt))
    (Stmt.namesOf d.body) (addedTo P.base.register body)
  /-- The addresses do not increase. -/
  descending : (rows.filterMap (Row.height size.toInt)).Pairwise fun h k => k ≤ h

/-- The parameters lie above the frame. -/
theorem Placed.parameters_descends {ys : List (String × Word)} {rows : List Row}
    (hP : t.Declares d P) (hp : Placed leaves t d P)
    (h : Lists t (P.addressing size) P.base .parameter (d.parameters.map (·.name)) ys rows) :
    Descends size.toInt (size.toInt + 4 * d.parameters.length) size.toInt rows := by
  refine h.descends fun y hy => ?_
  obtain ⟨b, hb, hname⟩ := List.mem_map.1 (h.perm.mem_iff.1 (List.mem_map_of_mem hy))
  obtain ⟨i, hi⟩ := List.mem_iff_getElem?.1 hb
  obtain ⟨v, w, hv, ho, hw⟩ := hp.parameters i b hi
  have hlt := (List.getElem?_eq_some_iff.1 hi).1
  have hvalue := hP.toInt_of_reaches hv ho (hname ▸ h.reaches y hy)
  omega

/-- The local variables lie in the uppermost part of the frame. -/
theorem Placed.locals_descends {ys : List (String × Word)} {rows : List Row}
    (hP : t.Declares d P) (hp : Placed leaves t d P)
    (h : Lists t (P.addressing size) P.base .localVariable (d.locals.map (·.name)) ys rows) :
    Descends size.toInt size.toInt (size.toInt - d.localBytes) rows := by
  refine h.descends fun y hy => ?_
  obtain ⟨b, hb, hname⟩ := List.mem_map.1 (h.perm.mem_iff.1 (List.mem_map_of_mem hy))
  obtain ⟨i, hi⟩ := List.mem_iff_getElem?.1 hb
  obtain ⟨v, w, hv, ho, hw⟩ := hp.locals i b hi
  have hle : ProcDecl.bytesOf (d.locals.take (i + 1)) ≤ d.localBytes :=
    ProcDecl.bytesOf_take_le d.locals (i + 1)
  have hvalue := hP.toInt_of_reaches hv ho (hname ▸ h.reaches y hy)
  omega

/-- A variable that the code of a procedure reaches is one of its parameters or local variables. -/
theorem SymbolTable.Declares.mem_of_reaches {ds : List ProcDecl} {name : String} {w : Word}
    (hP : t.Declares d P) (hH : t.Holds ds) (h : (P.addressing size).Reaches t name w) :
    name ∈ d.parameters.map (·.name) ∨ name ∈ d.locals.map (·.name) := by
  obtain ⟨v, -, hv, -, -⟩ := h
  rw [P.addressing_scope] at hv
  obtain ⟨hl, -⟩ := hH.find?_var hP (find?_of_variableAt hv)
  obtain ⟨hmem, -⟩ := hP.only name _ (local?_eq_some_iff.1 hl)
  exact List.mem_append.1 hmem

theorem Placed.drawn {ds : List ProcDecl} {entry body : List Line} {s : RegisterStack} {n : Nat}
    (hH : t.Holds ds) (hP : t.Declares d P) (hp : Placed leaves t d P)
    (hs : P.layout.frameSize = .ok (some size)) (hentry : EntryCode P.layout size entry)
    (hbody : Stmt.CodeOf t (P.addressing size) s n d.body body) (h : diagram t d P = .ok rows) :
    d.Drawn t P size entry body rows := by
  obtain ⟨ps, vs, ls, mark, hps, hvs, hls, hmark, rfl⟩ := diagram_eq_ok hs h
  obtain ⟨ys, hys⟩ := parameterRows_lists hP hp hs hps
  obtain ⟨zs, hzs⟩ := variableRows_lists hP hp hs hvs
  obtain ⟨hdescends, hcontents, hshows⟩ := lowerRows_shows hP hp hs hentry hls
  have hroom := hp.localBytes_le hP hs hentry
  have hparameters := hp.parameters_descends hP hys
  have hlocals := hp.locals_descends hP hzs
  refine ⟨?_, ?_, ?_, ?_⟩
  · have hvariables := (hzs.showsAll fun _ => .inr rfl).append hshows
    have hbegin : ShowsAll t (P.addressing size) entry [.line (some mark)] := .of_lines rfl
    have hellipsis : ShowsAll t (P.addressing size) entry [.ellipsis] := .of_lines rfl
    exact hellipsis.append ((hys.showsAll fun _ => .inl rfl).append (hbegin.append hvariables))
  · refine ⟨Int32.ofNat (4 * d.longestCall), d.longestCall, by rw [hp.layout]; rfl, ?_, ?_⟩
    · rw [Word.toInt_ofNat hp.outgoingRoom]
      omega
    · have hcells := (hys.contents.append hzs.contents).append_right
        (linkageCells P.layout.isLeaf d.longestCall)
      have hrows : (.ellipsis :: (ps ++ .line (some mark) :: (vs ++ ls))).filterMap Row.content? =
          ps.filterMap Row.content? ++ vs.filterMap Row.content? ++ ls.filterMap Row.content? := by
        rw [List.filterMap_cons_none rfl, List.filterMap_append, List.filterMap_cons_none rfl,
          List.filterMap_append, List.append_assoc]
      rw [hrows, hcontents]
      rw [List.map_map, List.map_map] at hcells
      exact hcells
  · have hadded := hbody.reaches (P.based size)
    rw [ReachesAll, ← P.base_register] at hadded
    refine hadded.imp fun name w hw => ?_
    rcases hP.mem_of_reaches hH hw with hmem | hmem
    · obtain ⟨place, hrow, hplace⟩ := hys.exists_row hmem hw
      exact ⟨_, place, rfl, .tail _ (List.mem_append_left _ hrow), hplace⟩
    · obtain ⟨place, hrow, hplace⟩ := hzs.exists_row hmem hw
      exact ⟨_, place, rfl,
        .tail _ (List.mem_append_right _ (.tail _ (List.mem_append_left _ hrow))), hplace⟩
  · have hrows := hparameters.append ((hlocals.append hdescends (by omega) (by omega)).cons hmark
      (by omega) (Int.le_refl _)) (by omega) (by omega)
    exact hrows.skip.sorted

end Spl
