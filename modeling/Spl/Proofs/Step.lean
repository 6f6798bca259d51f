import Spl.Code.Generator
import Spl.Frame.Allocation

/-!
# What a step promises

Allocation and code generation are steps on a state that can fail. `Ends E Q x s` says how the step
`x` ends when it begins in the state `s`: with an answer and a state that satisfy `Q`, or with a
failure that `E` admits.

* `Ends.bind`, `Ends.mono`: how promises compose.
* `Ends.ok`, `Ends.error`: what a promise says of a run; `Ends.of_run`: a promise from the run.
-/

namespace Spl

variable {ε σ α β : Type}

/-- From the state `s` the step succeeds with `Q`, or fails as `E` admits. -/
def Ends (E : ε → Prop) (Q : α → σ → Prop) (x : EStateM ε σ α) (s : σ) : Prop :=
  match x s with
  | .ok a s' => Q a s'
  | .error e _ => E e

namespace Ends

variable {E : ε → Prop} {Q Q' : α → σ → Prop} {R : β → σ → Prop} {s : σ}

theorem pure {a : α} (h : Q a s) : Ends E Q (Pure.pure a : EStateM ε σ α) s := h

theorem throw {e : ε} (h : E e) : Ends E Q (MonadExcept.throw e : EStateM ε σ α) s := h

theorem modify_bind {g : σ → σ} {f : Unit → EStateM ε σ β} (h : Ends E R (f ()) (g s)) :
    Ends E R (modify g >>= f) s := h

theorem of_modify {f : σ → σ} {Q : Unit → σ → Prop} (h : Q () (f s)) :
    Ends E Q (modify f : EStateM ε σ Unit) s := h

theorem bind {x : EStateM ε σ α} {f : α → EStateM ε σ β} (h : Ends E Q x s)
    (hf : ∀ a s', Q a s' → Ends E R (f a) s') : Ends E R (x >>= f) s := by
  unfold Ends at h ⊢
  show match EStateM.bind x f s with | .ok b s' => R b s' | .error e _ => E e
  unfold EStateM.bind
  cases hx : x s with
  | ok a s' =>
    rw [hx] at h
    exact hf a s' h
  | error e s' =>
    rw [hx] at h
    exact h

/-- Reading the state first. -/
theorem get_bind {f : σ → EStateM ε σ β} (h : Ends E R (f s) s) :
    Ends E R (get >>= f) s := h

theorem imp {E' : ε → Prop} {x : EStateM ε σ α} (h : Ends E Q x s) (hE : ∀ e, E e → E' e)
    (hQ : ∀ a s', Q a s' → Q' a s') : Ends E' Q' x s := by
  unfold Ends at *
  cases hx : x s with
  | ok a s' =>
    rw [hx] at h
    exact hQ a s' h
  | error e s' =>
    rw [hx] at h
    exact hE e h

theorem mono {x : EStateM ε σ α} (h : Ends E Q x s) (hQ : ∀ a s', Q a s' → Q' a s') :
    Ends E Q' x s := h.imp (fun _ he => he) hQ

theorem ok {x : EStateM ε σ α} (h : Ends E Q x s) {a : α} {s' : σ} (hx : x.run s = .ok a s') :
    Q a s' := by
  have hx' : x s = .ok a s' := hx
  rwa [Ends, hx'] at h

theorem error {x : EStateM ε σ α} (h : Ends E Q x s) {e : ε} {s' : σ}
    (hx : x.run s = .error e s') : E e := by
  have hx' : x s = .error e s' := hx
  rwa [Ends, hx'] at h

/-- A step that no failure ends succeeds. -/
theorem exists_ok {x : EStateM ε σ α} (h : Ends (fun _ => False) Q x s) :
    ∃ a s', x.run s = .ok a s' := by
  cases hx : x.run s with
  | ok a s' => exact ⟨a, s', rfl⟩
  | error e s' => exact (h.error hx).elim

/-- A step ends as its run says. -/
theorem of_run (x : EStateM ε σ α) (s : σ) :
    Ends (fun _ => True) (fun a s' => x.run s = .ok a s') x s := by
  unfold Ends
  cases hx : x s with
  | ok a s' => exact hx
  | error e s' => trivial

end Ends

end Spl
