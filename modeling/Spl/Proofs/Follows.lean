import Mathlib.Data.List.Forall2
import Spl.Typing.Basic

/-!
# Visits that follow one another

Two trees are visited, one after the other. The second visit follows the first one if it succeeds
wherever the first one does; nothing is said of it where the first one fails.

* `Visit.Follows R v v'`: `v'` succeeds if `v` does, and `R` relates the trees and the answers.
* `Visit.Follows.andThen`, `Visit.Follows.list`, `Visit.Follows.thread`: how such visits compose.
* `Visit.Along`, `Visit.Follows.thread_along`: lists that are related along a visit.
* `Visit.thread_zipWith`: lists that are visited alike, whether the visits succeed or fail.
* `Visit.thread_append_eq_ok_iff`: a visit of a list in two parts.
* `Visit.list_cases`, `Visit.thread_eq_error_iff`: where a visit of a list fails.
* `conclude_follows`: the step from a rule to the slot of a node.
-/

namespace Spl

theorem zipWith_eq_left {α β : Type} {f : α → β → α} {xs : List α} {ys : List β}
    (h : List.Forall₂ (fun x y => f x y = x) xs ys) : List.zipWith f xs ys = xs := by
  induction h with
  | nil => rfl
  | cons hxy _ ih => rw [List.zipWith_cons_cons, hxy, ih]

theorem zipWith_eq_right {α β : Type} {f : α → β → β} {xs : List α} {ys : List β}
    (h : List.Forall₂ (fun x y => f x y = y) xs ys) : List.zipWith f xs ys = ys := by
  induction h with
  | nil => rfl
  | cons hxy _ ih => rw [List.zipWith_cons_cons, hxy, ih]

namespace Visit

variable {ε τ τ' υ υ' α α' β β' σ σ' : Type}

/-- If the first visit succeeds, so does the second one, and `R` relates the trees and the
answers. -/
def Follows (R : τ → α → τ' → α' → Prop) (v : Visit ε τ α) (v' : Visit ε τ' α') : Prop :=
  ∀ a, v.answer = .ok a → ∃ a', v'.answer = .ok a' ∧ R v.tree a v'.tree a'

namespace Follows

variable {R R' : τ → α → τ' → α' → Prop} {v : Visit ε τ α} {v' : Visit ε τ' α'}

theorem mono (h : Follows R v v') (hR : ∀ y a y' a', R y a y' a' → R' y a y' a') :
    Follows R' v v' := fun a ha =>
  let ⟨a', ha', hr⟩ := h a ha
  ⟨a', ha', hR _ _ _ _ hr⟩

/-- What the first visit makes of its tree is known. -/
theorem at_tree (h : Follows R v v') :
    Follows (fun y a y' a' => R y a y' a' ∧ y = v.tree) v v' := fun a ha =>
  let ⟨a', ha', hr⟩ := h a ha
  ⟨a', ha', hr, rfl⟩

/-- Two visits of which the first one fails. -/
theorem of_fail {y : τ} {e : ε} : Follows R (fail y e) v' := nofun

theorem mapTree {f : τ → υ} {f' : τ' → υ'} {Q : υ → α → υ' → α' → Prop}
    (h : Follows (fun y a y' a' => Q (f y) a (f' y') a') v v') :
    Follows Q (v.mapTree f) (v'.mapTree f') := h

theorem map {f : α → β} {f' : α' → β'} {Q : τ → β → τ' → β' → Prop}
    (h : Follows (fun y a y' a' => Q y (f a) y' (f' a')) v v') :
    Follows Q (v.map f) (v'.map f') := by
  obtain ⟨y, x⟩ := v
  obtain ⟨y', x'⟩ := v'
  intro b hb
  cases x with
  | error e => cases hb
  | ok a =>
    cases hb
    obtain ⟨a', ha', hQ⟩ := h a rfl
    cases ha'
    exact ⟨f' a', rfl, hQ⟩

theorem andThen {stop : τ → υ} {stop' : τ' → υ'} {next : τ → α → Visit ε υ β}
    {next' : τ' → α' → Visit ε υ' β'} {Q : υ → β → υ' → β' → Prop} (h : Follows R v v')
    (hn : ∀ y a y' a', R y a y' a' → Follows Q (next y a) (next' y' a')) :
    Follows Q (v.andThen stop next) (v'.andThen stop' next') := by
  obtain ⟨y, x⟩ := v
  obtain ⟨y', x'⟩ := v'
  cases x with
  | error e => exact of_fail
  | ok a =>
    obtain ⟨a', ha', hR⟩ := h a rfl
    cases ha'
    exact hn y a y' a' hR

/-- The trees of a list are visited, and what becomes of them by `f`. -/
theorem list {visit : τ → Visit ε τ α} {visit' : τ' → Visit ε τ' α} {f : τ → τ'} {ts : List τ}
    (h : ∀ t ∈ ts, Follows (fun y a y' a' => y' = f y ∧ a' = a) (visit t) (visit' (f t))) :
    Follows (fun ys as ys' as' => ys' = ys.map f ∧ as' = as) (Visit.list visit ts)
      (Visit.list visit' (ts.map f)) := by
  induction ts with
  | nil => exact fun as has => ⟨as, has, rfl, rfl⟩
  | cons t ts ih =>
    refine (h t (.head _)).andThen fun y a y' a' hy => ?_
    obtain ⟨rfl, rfl⟩ := hy
    refine .map (.mapTree ((ih fun u hu => h u (.tail _ hu)).mono fun ys as ys' as' hys => ?_))
    obtain ⟨rfl, rfl⟩ := hys
    exact ⟨rfl, rfl⟩

/-- Two lists are visited with states. The invariant `K` relates the states and what is still to be
visited, and `T` what the visits make of the trees. -/
theorem thread {visit : σ → τ → Visit ε (σ × τ) α} {visit' : σ' → τ' → Visit ε (σ' × τ') α}
    {K : σ → σ' → List τ → List τ' → Prop} {T : τ → τ' → Prop}
    (hnil : ∀ s s' ts', K s s' [] ts' → ts' = [])
    (hcons : ∀ s s' t ts us, K s s' (t :: ts) us → ∃ t' ts', us = t' :: ts' ∧
      Follows (fun y a y' a' => K y.1 y'.1 ts ts' ∧ T y.2 y'.2 ∧ a' = a) (visit s t)
        (visit' s' t')) :
    ∀ {ts : List τ} {ts' : List τ'} {s : σ} {s' : σ'}, K s s' ts ts' →
      Follows (fun y as y' as' => K y.1 y'.1 [] [] ∧ List.Forall₂ T y.2 y'.2 ∧ as' = as)
        (Visit.thread visit s ts) (Visit.thread visit' s' ts')
  | [], ts', s, s', hK => by
    obtain rfl := hnil s s' ts' hK
    intro as has
    exact ⟨as, has, hK, .nil, rfl⟩
  | t :: ts, us, s, s', hK => by
    obtain ⟨t', ts', rfl, ht⟩ := hcons s s' t ts us hK
    refine ht.andThen fun y a y' a' hy => ?_
    obtain ⟨hK', hT, rfl⟩ := hy
    refine .map (.mapTree ((thread hnil hcons hK').mono fun ys as ys' as' hys => ?_))
    obtain ⟨hK'', hTs, rfl⟩ := hys
    exact ⟨hK'', .cons hT hTs, rfl⟩

end Follows

/-! ### Lists that are related along a visit -/

/-- Lists are equal if their elements are. -/
theorem eq_of_forall₂ {ts ts' : List τ} (h : List.Forall₂ (fun t t' => t' = t) ts ts') :
    ts' = ts :=
  List.forall₂_eq_eq_eq ▸ h.flip

/-- Two lists are related element by element, each pair in the state in which the visit of the first
list finds it. -/
def Along (visit : σ → τ → Visit ε (σ × τ) α) (R : σ → τ → τ' → Prop) : σ → List τ → List τ' → Prop
  | _, [], [] => True
  | s, t :: ts, t' :: ts' => R s t t' ∧ Along visit R (visit s t).tree.1 ts ts'
  | _, [], _ :: _ | _, _ :: _, [] => False

theorem Along.of_forall₂ {visit : σ → τ → Visit ε (σ × τ) α} {R : σ → τ → τ' → Prop} {ts : List τ}
    {ts' : List τ'} (h : List.Forall₂ (fun t t' => ∀ s, R s t t') ts ts') :
    ∀ s, Along visit R s ts ts' := by
  induction h with
  | nil => exact fun _ => trivial
  | cons ht _ ih => exact fun s => ⟨ht s, ih _⟩

/-- What relates each pair in whatever state relates the lists. -/
theorem Along.forall₂ {visit : σ → τ → Visit ε (σ × τ) α} {R : σ → τ → τ' → Prop}
    {T : τ → τ' → Prop} (hT : ∀ s t t', R s t t' → T t t') :
    ∀ {ts : List τ} {ts' : List τ'} {s : σ}, Along visit R s ts ts' → List.Forall₂ T ts ts'
  | [], [], _, _ => .nil
  | _ :: _, _ :: _, _, h => .cons (hT _ _ _ h.1) (h.2.forall₂ hT)

theorem Along.refl {visit : σ → τ → Visit ε (σ × τ) α} {R : σ → τ → τ → Prop} {ts : List τ}
    (h : ∀ t ∈ ts, ∀ s, R s t t) (s : σ) : Along visit R s ts ts :=
  .of_forall₂ (List.forall₂_same.2 h) s

/-- Two lists that are related along the visit of the first one. The relation `L` of the states is
kept by each pair of visits. -/
theorem Follows.thread_along {visit : σ → τ → Visit ε (σ × τ) α}
    {visit' : σ' → τ' → Visit ε (σ' × τ') α} {L : σ → σ' → Prop} {R : σ → τ → τ' → Prop}
    {T : τ → τ' → Prop}
    (h : ∀ s s' t t', L s s' → R s t t' →
      Follows (fun y a y' a' => L y.1 y'.1 ∧ T y.2 y'.2 ∧ a' = a) (visit s t) (visit' s' t'))
    {ts : List τ} {ts' : List τ'} {s : σ} {s' : σ'} (hL : L s s') (ha : Along visit R s ts ts') :
    Follows (fun y as y' as' => L y.1 y'.1 ∧ List.Forall₂ T y.2 y'.2 ∧ as' = as)
      (Visit.thread visit s ts) (Visit.thread visit' s' ts') := by
  refine (Follows.thread (T := T) (K := fun s s' ts ts' => L s s' ∧ Along visit R s ts ts')
    ?_ ?_ ⟨hL, ha⟩).mono fun _ _ _ _ hy => ⟨hy.1.1, hy.2⟩
  · intro s s' ts' hK
    cases ts' with
    | nil => rfl
    | cons t' ts' => exact hK.2.elim
  · intro s s' t ts us hK
    obtain ⟨hL, hK⟩ := hK
    cases us with
    | nil => exact hK.elim
    | cons t' ts' =>
      refine ⟨t', ts', rfl, fun a ha => ?_⟩
      obtain ⟨a', ha', hL', hT⟩ := h s s' t t' hL hK.1 a ha
      exact ⟨a', ha', ⟨hL', hK.2⟩, hT⟩

/-- Two lists are visited alike if the visits of their elements are. The function `f` puts what is
particular to an element of the second list into what the visit has made of the first one. -/
theorem thread_zipWith {visit : σ → τ → Visit ε (σ × τ) α} {R : τ → τ → Prop} {f : τ → τ → τ}
    (hf : ∀ t t', R t t' → f t t' = t')
    (h : ∀ s t t', R t t' → visit s t' = (visit s t).mapTree fun x => (x.1, f x.2 t'))
    {ts ts' : List τ} (hts : List.Forall₂ R ts ts') (s : σ) :
    Visit.thread visit s ts' =
      (Visit.thread visit s ts).mapTree fun x => (x.1, List.zipWith f x.2 ts') := by
  induction hts generalizing s with
  | nil => rfl
  | @cons t t' ts ts' ht hts ih =>
    rw [Visit.thread, Visit.thread, h s t t' ht]
    rcases visit s t with ⟨⟨s₁, t₁⟩, x⟩
    cases x with
    | error e =>
      dsimp only [Visit.andThen, Visit.mapTree]
      rw [List.zipWith_cons_cons, zipWith_eq_right (hts.imp hf)]
    | ok a =>
      dsimp only [Visit.andThen, Visit.mapTree]
      rw [ih s₁]
      rfl

/-! ### Lists in parts -/

/-- A visit of a list succeeds if each element is visited successfully. Otherwise it fails at the
first element whose visit does. -/
theorem list_cases (visit : τ → Visit ε τ α) (ts : List τ) :
    (∃ as, (Visit.list visit ts).answer = .ok as ∧
        List.Forall₂ (fun t a => (visit t).answer = .ok a) ts as) ∨
      ∃ before t after e, ts = before ++ t :: after ∧
        (∀ t ∈ before, ∃ a, (visit t).answer = .ok a) ∧ (visit t).answer = .error e ∧
        (Visit.list visit ts).answer = .error e := by
  induction ts with
  | nil => exact .inl ⟨[], rfl, .nil⟩
  | cons t ts ih =>
    rw [Visit.list]
    cases ht : visit t with
    | mk t' x =>
      cases x with
      | error e => exact .inr ⟨[], t, ts, e, rfl, nofun, by rw [ht], rfl⟩
      | ok a =>
        have hta : (visit t).answer = .ok a := by rw [ht]
        dsimp only [Visit.andThen, Visit.map, Visit.mapTree]
        rcases ih with ⟨as, has, hall⟩ | ⟨before, v, after, e, rfl, hbefore, hv, he⟩
        · rw [has]
          exact .inl ⟨a :: as, rfl, .cons hta hall⟩
        · rw [he]
          exact .inr ⟨t :: before, v, after, e, rfl, List.forall_mem_cons.2 ⟨⟨a, hta⟩, hbefore⟩, hv,
            rfl⟩

section
variable {visit : σ → τ → Visit ε (σ × τ) α} {s u : σ} {zs : List τ} {as : List α}

/-- A visit of a list succeeds if the visits of its head and of its tail do. -/
theorem thread_cons_eq_ok_iff {t : τ} {ts : List τ} :
    Visit.thread visit s (t :: ts) = ⟨(u, zs), .ok as⟩ ↔
      ∃ s' t' a ts' as', visit s t = ⟨(s', t'), .ok a⟩ ∧
        Visit.thread visit s' ts = ⟨(u, ts'), .ok as'⟩ ∧ zs = t' :: ts' ∧ as = a :: as' := by
  conv => lhs; lhs; rw [Visit.thread]
  rcases visit s t with ⟨⟨s', t'⟩, x⟩
  cases x with
  | error e =>
    refine ⟨nofun, ?_⟩
    rintro ⟨_, _, _, _, _, ⟨⟩, _⟩
  | ok a =>
    dsimp only [Visit.andThen]
    rcases hts : Visit.thread visit s' ts with ⟨⟨u', ts'⟩, x⟩
    cases x with
    | error e =>
      refine ⟨nofun, ?_⟩
      rintro ⟨_, _, _, _, _, ⟨⟩, htail, _⟩
      rw [hts] at htail
      cases htail
    | ok as' =>
      constructor
      · rintro ⟨⟩
        exact ⟨s', t', a, ts', as', rfl, hts, rfl, rfl⟩
      · rintro ⟨_, _, _, _, _, ⟨⟩, htail, rfl, rfl⟩
        rw [hts] at htail
        cases htail
        rfl

/-- A visit of two lists, one after the other, succeeds if both visits do. -/
theorem thread_append_eq_ok_iff {xs ys : List τ} :
    Visit.thread visit s (xs ++ ys) = ⟨(u, zs), .ok as⟩ ↔
      ∃ s' xs' ys' bs cs, Visit.thread visit s xs = ⟨(s', xs'), .ok bs⟩ ∧
        Visit.thread visit s' ys = ⟨(u, ys'), .ok cs⟩ ∧ zs = xs' ++ ys' ∧ as = bs ++ cs := by
  induction xs generalizing s zs as with
  | nil =>
    constructor
    · exact fun h => ⟨s, [], zs, [], as, rfl, h, rfl, rfl⟩
    · rintro ⟨_, _, _, _, _, ⟨⟩, h, rfl, rfl⟩
      exact h
  | cons x xs ih =>
    rw [List.cons_append, thread_cons_eq_ok_iff]
    constructor
    · rintro ⟨s₁, x', a, ts', as', hx, htail, rfl, rfl⟩
      obtain ⟨s', xs', ys', bs, cs, hxs, hys, rfl, rfl⟩ := ih.1 htail
      exact ⟨s', x' :: xs', ys', a :: bs, cs,
        thread_cons_eq_ok_iff.2 ⟨s₁, x', a, xs', bs, hx, hxs, rfl, rfl⟩, hys, rfl, rfl⟩
    · rintro ⟨s', _, ys', _, cs, hxs, hys, rfl, rfl⟩
      obtain ⟨s₁, x', a, xs', bs, hx, htail, rfl, rfl⟩ := thread_cons_eq_ok_iff.1 hxs
      exact ⟨s₁, x', a, xs' ++ ys', bs ++ cs, hx,
        ih.2 ⟨s', xs', ys', bs, cs, htail, hys, rfl, rfl⟩, rfl, rfl⟩

/-- A visit of a list fails if, after visits that succeed, the visit of one of its elements does.
All elements behind that one are left alone. -/
theorem thread_eq_error_iff {ts : List τ} {e : ε} :
    Visit.thread visit s ts = ⟨(u, zs), .error e⟩ ↔
      ∃ before t after s' before' as t', ts = before ++ t :: after ∧
        Visit.thread visit s before = ⟨(s', before'), .ok as⟩ ∧
        visit s' t = ⟨(u, t'), .error e⟩ ∧ zs = before' ++ t' :: after := by
  constructor
  · intro h
    induction ts generalizing s zs with
    | nil => cases h
    | cons t ts ih =>
      rw [Visit.thread] at h
      rcases ht : visit s t with ⟨⟨s₁, t'⟩, x⟩
      rw [ht] at h
      cases x with
      | error f =>
        cases h
        exact ⟨[], t, ts, s, [], [], t', rfl, rfl, ht, rfl⟩
      | ok a =>
        rcases hts : Visit.thread visit s₁ ts with ⟨⟨u', ts'⟩, x⟩
        dsimp only [Visit.andThen] at h
        rw [hts] at h
        cases x with
        | ok as' => cases h
        | error f =>
          cases h
          obtain ⟨before, v, after, s', before', as, v', rfl, hbefore, hv, rfl⟩ := ih hts
          exact ⟨t :: before, v, after, s', t' :: before', a :: as, v', rfl,
            thread_cons_eq_ok_iff.2 ⟨s₁, t', a, before', as, ht, hbefore, rfl, rfl⟩, hv, rfl⟩
  · rintro ⟨before, t, after, s', before', as, t', rfl, hbefore, ht, rfl⟩
    induction before generalizing s before' as with
    | nil =>
      cases hbefore
      rw [List.nil_append, Visit.thread, ht]
      rfl
    | cons v before ih =>
      obtain ⟨s₁, v', a, vs', as', hv, hvs, rfl, rfl⟩ := thread_cons_eq_ok_iff.1 hbefore
      rw [List.cons_append, Visit.thread, hv]
      dsimp only [Visit.andThen]
      rw [ih _ _ hvs]
      rfl

end

end Visit

/-- The same type is written into the slots of two nodes. -/
theorem conclude_follows {τ τ' : Type} {T : τ → τ' → Prop} {slot : TypeSlot} {node : TypeSlot → τ}
    {node' : TypeSlot → τ'} {rule rule' : Verdict Ty} (hT : ∀ slot, T (node slot) (node' slot))
    (hr : ∀ ty, rule = .ok ty → rule' = .ok ty) :
    (conclude slot node rule).Follows (fun y a y' a' => T y y' ∧ a' = a)
      (conclude slot node' rule') := by
  intro ty hty
  unfold conclude at hty ⊢
  cases rule with
  | error e => cases hty
  | ok ty' =>
    rw [hr ty' rfl]
    dsimp only at hty ⊢
    cases hs : slot.fill ty' with
    | error g => rw [hs] at hty; cases hty
    | ok slot' =>
      rw [hs] at hty
      exact ⟨ty, hty, hT slot', rfl⟩

end Spl
