import Mathlib.Data.List.Forall2
import Spl.Failure

/-!
# What a pass promises

A pass that succeeds promises something of its result, and one that fails may do so with an error
of the program. Whether it may fail with a fault is a parameter of the promise.

* `Meets A Q x`: the outcome `x` is a success with `Q`, an error, or a fault where `A` admits one.
* `Visit.Meets`: the same of a visit, where `Q` also speaks of the tree left behind.
* `Visit.Meets.andThen`, `Visit.Meets.list`, `Visit.Meets.thread`: how promises compose.
* `Visit.forall₂_thread`: what a list of visits makes of its trees, whether it succeeds or not.
* `Decides Q F x`, `Visit.Decides`: a success with `Q` or a failure with `F`, for a pass that also
  promises why it fails (`Visit.Decides.andThen`, `Visit.Decides.list`, `Visit.Decides.thread`).
-/

namespace Spl

variable {ε α β τ υ σ : Type} {A : Prop}

theorem eq_ok_of_toOption {x : Except ε α} {a : α} (h : x.toOption = some a) : x = .ok a := by
  cases x with
  | error e => cases h
  | ok b => exact congrArg Except.ok (Option.some.inj h)

theorem exists_ok_of_isSome {x : Except ε α} (h : x.toOption.isSome = true) : ∃ a, x = .ok a :=
  (Option.isSome_iff_exists.1 h).imp fun _ => eq_ok_of_toOption

/-- Which error a computation ends in, by evaluation. -/
theorem eq_error_of_decide [DecidableEq ε] {x : Except ε α} {e : ε}
    (h : (match x with | .ok _ => false | .error f => decide (f = e)) = true) : x = .error e := by
  cases x with
  | ok a => cases h
  | error f => exact congrArg _ (of_decide_eq_true h)

theorem bind_eq_ok_iff {x : Except ε α} {f : α → Except ε β} {b : β} :
    x.bind f = .ok b ↔ ∃ a, x = .ok a ∧ f a = .ok b := by
  cases x <;> simp [Except.bind]

theorem bind_eq_error_iff {x : Except ε α} {f : α → Except ε β} {e : ε} :
    x.bind f = .error e ↔ x = .error e ∨ ∃ a, x = .ok a ∧ f a = .error e := by
  cases x <;> simp [Except.bind]

theorem mapError_eq_ok_iff {δ : Type} {x : Except ε α} {f : ε → δ} {a : α} :
    x.mapError f = .ok a ↔ x = .ok a := by
  cases x <;> simp [Except.mapError]

/-- A computation for each element of a list. -/
theorem forall₂_of_mapM_eq_ok {f : α → Except ε β} {xs : List α} {ys : List β}
    (h : xs.mapM f = .ok ys) : List.Forall₂ (fun x y => f x = .ok y) xs ys := by
  induction xs generalizing ys with
  | nil =>
    cases h
    exact .nil
  | cons x xs ih =>
    rw [List.mapM_cons] at h
    obtain ⟨y, hy, h⟩ := bind_eq_ok_iff.1 h
    obtain ⟨ys', hys, h⟩ := bind_eq_ok_iff.1 h
    cases h
    exact .cons hy (ih hys)

/-- A success with `Q`, an error of the program, or a fault if `A` holds. -/
def Meets (A : Prop) (Q : α → Prop) : Except (Failure ε) α → Prop
  | .ok a => Q a
  | .error (.error _) => True
  | .error (.fault _) => A

namespace Meets

variable {Q Q' : α → Prop} {R : β → Prop} {x : Except (Failure ε) α}

@[simp]
theorem ok_iff {a : α} : Meets A Q (.ok a : Except (Failure ε) α) ↔ Q a := Iff.rfl

@[simp]
theorem report (position : Position) (cause : ε) :
    Meets A Q (Failure.report position cause) := trivial

theorem of_ok (h : Meets A Q x) {a : α} (hx : x = .ok a) : Q a := by
  subst hx; exact h

theorem not_fault (h : Meets False Q x) (f : Fault) : x ≠ .error (.fault f) := by
  rintro rfl; exact h

/-- A failure promises the same whatever a success would have promised. -/
theorem of_error {e : Failure ε} (h : Meets A Q (.error e)) : Meets A R (.error e) := by
  cases e with
  | error _ => trivial
  | fault _ => exact h

/-- A failure promises nothing where faults are admitted. -/
theorem of_failure (e : Failure ε) : Meets True Q (.error e) := by
  cases e <;> trivial

theorem of_true (x : Except (Failure ε) α) : Meets True (fun _ => True) x := by
  cases x with
  | ok _ => trivial
  | error e => exact .of_failure e

theorem mono (h : Meets A Q x) (hQ : ∀ a, Q a → Q' a) : Meets A Q' x := by
  cases x with
  | ok a => exact hQ a h
  | error e => exact h.of_error

theorem bind {f : α → Except (Failure ε) β} (h : Meets A Q x) (hf : ∀ a, Q a → Meets A R (f a)) :
    Meets A R (x >>= f) := by
  cases x with
  | ok a => exact hf a h
  | error e => exact h.of_error

theorem map {f : α → β} (h : Meets A (fun a => R (f a)) x) : Meets A R (x.map f) := by
  cases x with
  | ok a => exact h
  | error e => exact h.of_error

end Meets

namespace Visit

/-- A visit that succeeds with `Q` of the tree and the answer, or ends in an error of the program,
or in a fault if `A` holds. -/
def Meets (A : Prop) (Q : τ → α → Prop) (v : Visit (Failure ε) τ α) : Prop :=
  Spl.Meets A (Q v.tree) v.answer

namespace Meets

variable {Q Q' : τ → α → Prop} {R : υ → β → Prop} {v : Visit (Failure ε) τ α}

theorem of_ok (h : Meets A Q v) {a : α} (ha : v.answer = .ok a) : Q v.tree a :=
  Spl.Meets.of_ok h ha

theorem mono (h : Meets A Q v) (hQ : ∀ t a, Q t a → Q' t a) : Meets A Q' v :=
  Spl.Meets.mono h (hQ v.tree)

theorem of_true (v : Visit (Failure ε) τ α) : Meets True (fun _ _ => True) v :=
  Spl.Meets.of_true v.answer

theorem mapTree {f : τ → υ} {R : υ → α → Prop} (h : Meets A (fun t a => R (f t) a) v) :
    Meets A R (v.mapTree f) := h

theorem map {f : α → β} {R : τ → β → Prop} (h : Meets A (fun t a => R t (f a)) v) :
    Meets A R (v.map f) := Spl.Meets.map h

theorem andThen {stop : τ → υ} {next : τ → α → Visit (Failure ε) υ β} (h : Meets A Q v)
    (hn : ∀ t a, Q t a → Meets A R (next t a)) : Meets A R (v.andThen stop next) := by
  obtain ⟨t, x⟩ := v
  cases x with
  | ok a => exact hn t a h
  | error e => exact Spl.Meets.of_error h

/-- A list of visits succeeds with related trees and answers if each of them does. -/
theorem list {visit : τ → Visit (Failure ε) τ α} {ts : List τ}
    (h : ∀ t ∈ ts, Meets A Q (visit t)) :
    Meets A (fun ts' as => ts'.length = ts.length ∧ List.Forall₂ Q ts' as)
      (Visit.list visit ts) := by
  induction ts with
  | nil => exact ⟨rfl, .nil⟩
  | cons t ts ih =>
    refine andThen (h t (.head _)) fun t' a hQ => ?_
    refine map (mapTree (mono (ih fun u hu => h u (.tail _ hu)) ?_))
    intro ts' as h
    obtain ⟨hl, hs⟩ := h
    exact ⟨by rw [List.length_cons, List.length_cons, hl], .cons hQ hs⟩

/-- An invariant of the state, of the trees seen so far and of what has been made of them, kept by
each visit, holds after a list of visits. -/
theorem thread_from {visit : σ → τ → Visit (Failure ε) (σ × τ) α}
    {I : σ → List τ → List τ → List α → Prop} {ts : List τ} {s : σ} {seen done : List τ}
    {as : List α}
    (h : ∀ t ∈ ts, ∀ s seen done as, I s seen done as →
      Meets A (fun (s', t') a => I s' (seen ++ [t]) (done ++ [t']) (as ++ [a])) (visit s t))
    (hI : I s seen done as) :
    Meets A (fun (s', ts') as' => I s' (seen ++ ts) (done ++ ts') (as ++ as'))
      (Visit.thread visit s ts) := by
  induction ts generalizing s seen done as with
  | nil =>
    show I s (seen ++ []) (done ++ []) (as ++ [])
    simpa using hI
  | cons t ts ih =>
    refine andThen (h t (.head _) s seen done as hI) fun (s', t') a hI' => ?_
    refine map (mapTree (mono (ih (fun u hu => h u (.tail _ hu)) hI')
      fun (s'', ts') as' hI'' => ?_))
    simpa using hI''

theorem thread {visit : σ → τ → Visit (Failure ε) (σ × τ) α}
    {I : σ → List τ → List τ → List α → Prop} {ts : List τ} {s : σ}
    (h : ∀ t ∈ ts, ∀ s seen done as, I s seen done as →
      Meets A (fun (s', t') a => I s' (seen ++ [t]) (done ++ [t']) (as ++ [a])) (visit s t))
    (hI : I s [] [] []) :
    Meets A (fun (s', ts') as' => I s' ts ts' as') (Visit.thread visit s ts) :=
  thread_from h hI

end Meets

/-- What holds of the tree after a visit that goes on or stops. -/
theorem tree_andThen {ε : Type} {P : υ → Prop} {v : Visit ε τ α} {stop : τ → υ}
    {next : τ → α → Visit ε υ β} (hs : P (stop v.tree)) (hn : ∀ a, P (next v.tree a).tree) :
    P (v.andThen stop next).tree := by
  obtain ⟨t, x⟩ := v
  cases x with
  | ok a => exact hn a
  | error e => exact hs

/-- What each visit makes of its tree, a list of visits makes of a list, as far as it comes. -/
theorem forall₂_thread {ε : Type} {R : τ → τ → Prop} {visit : σ → τ → Visit ε (σ × τ) α}
    (hr : ∀ t, R t t) (h : ∀ s t, R t (visit s t).tree.2) :
    ∀ (ts : List τ) (s : σ), List.Forall₂ R ts (Visit.thread visit s ts).tree.2
  | [], _ => .nil
  | t :: ts, s => by
    have ht := h s t
    unfold Visit.thread
    unfold Visit.andThen
    cases (visit s t).answer with
    | ok a => exact .cons ht (forall₂_thread hr h ts _)
    | error e => exact .cons ht (List.forall₂_same.2 fun t _ => hr t)

end Visit

/-! ## Promises of failures -/

/-- A failure is an error of the program of which `B` holds. -/
def Failure.Due (B : Located ε → Prop) (f : Failure ε) : Prop := ∃ x, f = .error x ∧ B x

theorem Failure.Due.mono {B B' : Located ε → Prop} {f : Failure ε} (h : f.Due B)
    (hB : ∀ x, B x → B' x) : f.Due B' := by
  obtain ⟨x, hx, hb⟩ := h
  exact ⟨x, hx, hB x hb⟩

/-- A success with `Q`, or a failure with `F`. -/
def Decides (Q : α → Prop) (F : ε → Prop) : Except ε α → Prop
  | .ok a => Q a
  | .error e => F e

namespace Decides

variable {Q Q' : α → Prop} {F F' : ε → Prop} {R : β → Prop} {x : Except ε α}

theorem report {B : Located ε → Prop} {position : Position} {cause : ε} (h : B ⟨position, cause⟩) :
    Decides Q (Failure.Due B) (Failure.report position cause) := ⟨_, rfl, h⟩

theorem mono (h : Decides Q F x) (hQ : ∀ a, Q a → Q' a) (hF : ∀ e, F e → F' e) :
    Decides Q' F' x := by
  cases x with
  | ok a => exact hQ a h
  | error e => exact hF e h

theorem bind {f : α → Except ε β} (h : Decides Q F x) (hf : ∀ a, Q a → Decides R F' (f a))
    (hF : ∀ e, F e → F' e) : Decides R F' (x >>= f) := by
  cases x with
  | ok a => exact hf a h
  | error e => exact hF e h

theorem of_ok (h : Decides Q F x) {a : α} (hx : x = .ok a) : Q a := by
  subst hx
  exact h

theorem of_error (h : Decides Q F x) {e : ε} (hx : x = .error e) : F e := by
  subst hx
  exact h

end Decides

namespace Visit

/-- A visit that succeeds with `Q` of the tree and the answer, or fails with `F` of the tree and the
failure. -/
def Decides (Q : τ → α → Prop) (F : τ → ε → Prop) (v : Visit ε τ α) : Prop :=
  Spl.Decides (Q v.tree) (F v.tree) v.answer

namespace Decides

variable {Q Q' : τ → α → Prop} {F F' : τ → ε → Prop} {R : υ → β → Prop} {G : υ → ε → Prop}
  {v : Visit ε τ α}

theorem mono (h : Decides Q F v) (hQ : ∀ t a, Q t a → Q' t a) (hF : ∀ t e, F t e → F' t e) :
    Decides Q' F' v :=
  Spl.Decides.mono h (hQ v.tree) (hF v.tree)

theorem mapTree {f : τ → υ} {R : υ → α → Prop}
    (h : Decides (fun t a => R (f t) a) (fun t e => G (f t) e) v) : Decides R G (v.mapTree f) := h

theorem map {f : α → β} {R : τ → β → Prop} (h : Decides (fun t a => R t (f a)) F v) :
    Decides R F (v.map f) := by
  obtain ⟨t, x⟩ := v
  cases x with
  | ok a => exact h
  | error e => exact h

theorem andThen {stop : τ → υ} {next : τ → α → Visit ε υ β} (h : Decides Q F v)
    (hF : ∀ t e, F t e → G (stop t) e) (hn : ∀ t a, Q t a → Decides R G (next t a)) :
    Decides R G (v.andThen stop next) := by
  obtain ⟨t, x⟩ := v
  cases x with
  | ok a => exact hn t a h
  | error e => exact hF t e h

theorem of_ok (h : Decides Q F v) {a : α} (ha : v.answer = .ok a) : Q v.tree a :=
  Spl.Decides.of_ok h ha

theorem of_error (h : Decides Q F v) {e : ε} (he : v.answer = .error e) : F v.tree e :=
  Spl.Decides.of_error h he

/-- A success that is decided keeps what else it promises. -/
theorem and_meets {R : τ → α → Prop} {H : τ → Failure ε → Prop} {w : Visit (Failure ε) τ α}
    (h : w.Decides Q H) (hm : w.Meets A R) : w.Decides (fun t a => R t a ∧ Q t a) H := by
  obtain ⟨t, x⟩ := w
  cases x with
  | ok a => exact ⟨hm, h⟩
  | error e => exact h

/-- What each visit promises of its answer, a list of visits promises of all answers. -/
theorem list {visit : τ → Visit ε τ α} {P : α → Prop} {B : ε → Prop} {ts : List τ}
    (h : ∀ t ∈ ts, (visit t).Decides (fun _ a => P a) fun _ => B) :
    (Visit.list visit ts).Decides (fun _ as => ∀ a ∈ as, P a) fun _ => B := by
  induction ts with
  | nil => exact fun _ ha => nomatch ha
  | cons t ts ih =>
    rw [List.forall_mem_cons] at h
    unfold Visit.list
    refine h.1.andThen (fun _ _ hf => hf) fun t' a ha => ?_
    exact .map (.mapTree ((ih h.2).mono (fun _ _ has => List.forall_mem_cons.2 ⟨ha, has⟩)
      fun _ _ hf => hf))

/-- An invariant of the state, kept by each visit, holds after a list of visits, and what each
visit promises of its answer holds of all answers. -/
theorem thread {visit : σ → τ → Visit ε (σ × τ) α} {I : σ → Prop} {P : α → Prop} {B : ε → Prop}
    {ts : List τ} {s : σ}
    (h : ∀ t ∈ ts, ∀ s, I s → (visit s t).Decides (fun v a => I v.1 ∧ P a) fun _ => B) (hs : I s) :
    (Visit.thread visit s ts).Decides (fun v as => I v.1 ∧ ∀ a ∈ as, P a) fun _ => B := by
  induction ts generalizing s with
  | nil => exact ⟨hs, fun _ ha => nomatch ha⟩
  | cons t ts ih =>
    rw [List.forall_mem_cons] at h
    unfold Visit.thread
    refine (h.1 s hs).andThen (fun _ _ hf => hf) fun v a ha => ?_
    refine .map (.mapTree ((ih h.2 ha.1).mono (fun _ _ has => ?_) fun _ _ hf => hf))
    exact ⟨has.1, List.forall_mem_cons.2 ⟨ha.2, has.2⟩⟩

end Decides

end Visit

end Spl
