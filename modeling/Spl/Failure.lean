import Spl.Fault
import Spl.Tree.Position

/-!
# How a pass fails

A pass ends early for one of two reasons: an error of the program, which has a position in the
source text, or a fault of the compiler. A pass that walks over a tree leaves its marks on the tree
in either case, so its result is a `Visit`: the tree as the pass left it, and the answer.

* `Visit.andThen`: one visit after another, as long as they succeed.
* `Visit.list`, `Visit.thread`: visits of the elements of a list, in order.
-/

namespace Spl

/-- Why a pass ended early. -/
inductive Failure (ε : Type) where
  | error (e : Located ε)
  | fault (f : Fault)
  deriving DecidableEq

namespace Failure

/-- Fails with an error of the program. -/
def report {ε α : Type} (position : Position) (cause : ε) : Except (Failure ε) α :=
  .error (.error ⟨position, cause⟩)

end Failure

/-- A computation that can only end in a fault is a step of any pass. -/
instance {ε : Type} : MonadLift (Except Fault) (Except (Failure ε)) where
  monadLift x := x.mapError .fault

/-- What is left after a pass has walked over a tree: the tree with the marks made on the way, which
are there also after a failure, and the answer. -/
structure Visit (ε τ α : Type) where
  tree : τ
  answer : Except ε α

namespace Visit

variable {ε τ υ α β σ : Type}

/-- A visit that changes nothing. -/
def pure (tree : τ) (a : α) : Visit ε τ α := ⟨tree, .ok a⟩

/-- A visit that fails. -/
def fail (tree : τ) (e : ε) : Visit ε τ α := ⟨tree, .error e⟩

/-- Changes the tree of a visit and keeps its answer. -/
def mapTree (f : τ → υ) (v : Visit ε τ α) : Visit ε υ α := ⟨f v.tree, v.answer⟩

/-- Changes the answer of a visit that succeeded. -/
def map (f : α → β) (v : Visit ε τ α) : Visit ε τ β := ⟨v.tree, v.answer.map f⟩

/-- Goes on after a visit: with `next` if it succeeded; otherwise the tree is what `stop` makes of
the part visited. -/
def andThen (v : Visit ε τ α) (stop : τ → υ) (next : τ → α → Visit ε υ β) : Visit ε υ β :=
  match v.answer with
  | .ok a => next v.tree a
  | .error e => ⟨stop v.tree, .error e⟩

/-- Visits the elements of a list in order, up to the first failure. -/
def list (visit : τ → Visit ε τ α) : List τ → Visit ε (List τ) (List α)
  | [] => pure [] []
  | t :: ts =>
    (visit t).andThen (· :: ts) fun t a =>
      ((list visit ts).mapTree (t :: ·)).map (a :: ·)

/-- Visits the elements of a list in order, up to the first failure; each visit also changes a
state, which counts as part of the tree. -/
def thread (visit : σ → τ → Visit ε (σ × τ) α) : σ → List τ → Visit ε (σ × List τ) (List α)
  | s, [] => pure (s, []) []
  | s, t :: ts =>
    (visit s t).andThen (fun (s, t) => (s, t :: ts)) fun (s, t) a =>
      ((thread visit s ts).mapTree fun (s, ts) => (s, t :: ts)).map (a :: ·)

end Visit

end Spl
