import Spl.Code.Body
import Spl.Proofs.Machine.Basic
import Spl.Proofs.Outcome
import Spl.Proofs.Ty.Size

/-!
# The meaning of bodies

What the designators, expressions and call-free statements of a procedure mean, said apart from the
code: variables are words of a memory at a distance from the frame pointer, and types only say how
far apart the parts of a variable are. Which divisions have a result is left open, as it is for the
machine.

* `Activation`: where the variables of a procedure are.
* `Designator.locate`, `Expr.eval`: addresses and values, or why there is none.
* `Designator.locate_congr`, `Expr.eval_congr`: they depend on the words that are read only.
* `Expr.Passes`: what an argument passes.
* `Stmt.Exec`: how a statement ends.
-/

namespace Spl

/-- Why an evaluation stops: an index is out of bounds, a division has no result, or the tree is
none that the compiler accepts. -/
inductive Trap where
  | index
  | division
  | fault (f : Fault)

/-- The result of a look-up in an evaluation. -/
def Trap.lift {α : Type} (x : Except Fault α) : Except Trap α := x.mapError .fault

/-- Where the variables of a procedure are while it runs: their offsets are those of a scope, and
count from the frame pointer. -/
structure Activation where
  table : SymbolTable
  scope : ScopeId
  framePointer : Word

namespace Activation

/-- The address of a variable: its own place, or the address that is stored there for a
reference. -/
def addressOf (A : Activation) (m : Memory) (name : String) : Except Trap Word := do
  let v ← Trap.lift (variableAt A.table A.scope name)
  match v.offset with
  | none => .error (.fault (.unplacedVariable name))
  | some offset =>
    .ok (if v.isReference then m (A.framePointer + offset) else A.framePointer + offset)

end Activation

/-- The result of an arithmetic operator, where `div` divides. -/
def ArithOp.apply (div : Word → Word → Option Word) : ArithOp → Word → Word → Option Word
  | .add, a, b => some (a + b)
  | .sub, a, b => some (a - b)
  | .mul, a, b => some (a * b)
  | .div, a, b => div a b

/-- True of the operands that compare as the operator says. -/
def Comparison.holds : Comparison → Word → Word → Bool
  | .equ, a, b => a == b
  | .neq, a, b => a != b
  | .lst, a, b => a.toInt < b.toInt
  | .lse, a, b => a.toInt ≤ b.toInt
  | .grt, a, b => b.toInt < a.toInt
  | .gre, a, b => b.toInt ≤ a.toInt

/-- The distance of a field from the beginning of its record. -/
def Ty.fieldDistance (name : String) : Ty → Except Fault Nat
  | .record fields =>
    match fieldType? fields name with
    | some _ => .ok (bytesBefore name fields)
    | none => .error (.unknownField name)
  | .int | .bool | .array .. => .error (.unknownField name)

section

variable (div : Word → Word → Option Word) (A : Activation) (m : Memory)

mutual

/-- The address of what a designator denotes. -/
def Designator.locate : Designator → Except Trap Word
  | .named _ name _ => A.addressOf m name
  | .element _ array index _ => do
    let (length, base) ← Trap.lift (array.type >>= arrayParts)
    let a ← array.locate
    let i ← index.eval
    if 0 ≤ i.toInt ∧ i.toInt < length.toNat then .ok (a + i * Int32.ofNat base.bytes)
    else .error .index
  | .field _ record name _ => do
    let distance ← Trap.lift (record.type >>= Ty.fieldDistance name)
    let a ← record.locate
    .ok (a + Int32.ofNat distance)

/-- The value of an expression. A comparison is 0 or 1. -/
def Expr.eval : Expr → Except Trap Word
  | .literal _ value _ => .ok value
  | .unary _ .minus operand _ => do
    let v ← operand.eval
    .ok (-v)
  | .binary _ (.arith op) left right _ => do
    let a ← left.eval
    let b ← right.eval
    match op.apply div a b with
    | some v => .ok v
    | none => .error .division
  | .binary _ (.compare op) left right _ => do
    let a ← left.eval
    let b ← right.eval
    .ok (if op.holds a b then 1 else 0)
  | .designator _ target _ => do
    let a ← target.locate
    .ok (m a)

end

end

section

variable {div : Word → Word → Option Word} {A : Activation} {m : Memory} {p : Position}
  {slot : TypeSlot} {l r e : Expr}

theorem Designator.locate_named {name : String} {v : Variable} {offset : Word}
    (hv : variableAt A.table A.scope name = .ok v) (ho : v.offset = some offset) :
    (Designator.named p name slot).locate div A m =
      .ok (if v.isReference then m (A.framePointer + offset) else A.framePointer + offset) := by
  simp only [locate, Activation.addressOf, hv, Trap.lift, Except.mapError, bind, Except.bind, ho]

theorem Designator.locate_element {array : Designator} {index : Expr} {length : UInt32} {base : Ty}
    (ha : array.type = .ok (.array length base)) :
    (Designator.element p array index slot).locate div A m =
      (array.locate div A m).bind fun x => (index.eval div A m).bind fun i =>
        if 0 ≤ i.toInt ∧ i.toInt < length.toNat then .ok (x + i * Int32.ofNat base.bytes)
        else .error .index := by
  rw [locate, ha]
  rfl

theorem Designator.locate_field {record : Designator} {name : String} {fields : List (String × Ty)}
    {ty : Ty} (hr : record.type = .ok (.record fields))
    (hf : Ty.fieldType? fields name = some ty) :
    (Designator.field p record name slot).locate div A m =
      (record.locate div A m).bind fun x => .ok (x + Int32.ofNat (Ty.bytesBefore name fields)) := by
  simp only [locate, hr, bind, Except.bind, Ty.fieldDistance, hf, Trap.lift, Except.mapError]

theorem Expr.eval_minus : (Expr.unary p .minus e slot).eval div A m =
    (e.eval div A m).bind fun v => .ok (-v) := by
  rw [eval]
  rfl

theorem Expr.eval_arith {op : ArithOp} : (Expr.binary p (.arith op) l r slot).eval div A m =
    (l.eval div A m).bind fun x => (r.eval div A m).bind fun y =>
      match op.apply div x y with
      | some v => .ok v
      | none => .error .division := by
  rw [eval]
  rfl

theorem Expr.eval_compare {op : Comparison} :
    (Expr.binary p (.compare op) l r slot).eval div A m =
      (l.eval div A m).bind fun x => (r.eval div A m).bind fun y =>
        .ok (if op.holds x y then 1 else 0) := by
  rw [eval]
  rfl

theorem Expr.eval_designator {d : Designator} : (Expr.designator p d slot).eval div A m =
    (d.locate div A m).bind fun x => .ok (m x) := by
  rw [eval]
  rfl

end

/-! ## The words that an evaluation reads -/

namespace Activation

/-- The words that are read for the address of a variable: the place of a reference. -/
def reads (A : Activation) (name : String) : List Word :=
  match variableAt A.table A.scope name with
  | .error _ => []
  | .ok v =>
    match v.offset with
    | none => []
    | some offset => if v.isReference then [A.framePointer + offset] else []

theorem addressOf_congr {A : Activation} {m m' : Memory} {name : String}
    (h : ∀ x ∈ A.reads name, m' x = m x) : A.addressOf m' name = A.addressOf m name := by
  unfold addressOf
  unfold reads at h
  cases hv : variableAt A.table A.scope name with
  | error f => rfl
  | ok v =>
    rw [hv] at h
    dsimp only at h
    simp only [Trap.lift, Except.mapError, bind, Except.bind]
    cases ho : v.offset with
    | none => rfl
    | some offset =>
      rw [ho] at h
      cases hr : v.isReference with
      | false => rfl
      | true =>
        rw [hr] at h
        show Except.ok (m' (A.framePointer + offset)) = Except.ok (m (A.framePointer + offset))
        rw [h _ (.head _)]

end Activation

section

variable (div : Word → Word → Option Word) (A : Activation) (m : Memory)

mutual

/-- The words that are read for the address of what a designator denotes. -/
def Designator.reads : Designator → List Word
  | .named _ name _ => A.reads name
  | .element _ array index _ => array.reads ++ index.reads
  | .field _ record _ _ => record.reads

/-- The words that are read for the value of an expression. -/
def Expr.reads : Expr → List Word
  | .literal .. => []
  | .unary _ _ operand _ => operand.reads
  | .binary _ _ left right _ => left.reads ++ right.reads
  | .designator _ target _ =>
    match target.locate div A m with
    | .error _ => target.reads
    | .ok a => target.reads ++ [a]

end

end

section

variable {div : Word → Word → Option Word} {A : Activation} {m m' : Memory}

mutual

/-- An address depends only on the words that are read for it. -/
theorem Designator.locate_congr : ∀ {d : Designator},
    (∀ x ∈ d.reads div A m, m' x = m x) → d.locate div A m' = d.locate div A m
  | .named _ name _, h => by
    rw [Designator.reads] at h
    rw [Designator.locate, Designator.locate, Activation.addressOf_congr h]
  | .element _ array index _, h => by
    rw [Designator.reads, List.forall_mem_append] at h
    rw [Designator.locate, Designator.locate, array.locate_congr h.1, index.eval_congr h.2]
  | .field _ record _ _, h => by
    rw [Designator.reads] at h
    rw [Designator.locate, Designator.locate, record.locate_congr h]

/-- A value depends only on the words that are read for it. -/
theorem Expr.eval_congr : ∀ {e : Expr}, (∀ x ∈ e.reads div A m, m' x = m x) →
    e.eval div A m' = e.eval div A m
  | .literal _ _ _, _ => by rw [Expr.eval, Expr.eval]
  | .unary _ .minus operand _, h => by
    rw [Expr.reads] at h
    rw [Expr.eval, Expr.eval, operand.eval_congr h]
  | .binary _ (.arith _) left right _, h | .binary _ (.compare _) left right _, h => by
    rw [Expr.reads, List.forall_mem_append] at h
    rw [Expr.eval, Expr.eval, left.eval_congr h.1, right.eval_congr h.2]
  | .designator _ target _, h => by
    rw [Expr.reads] at h
    rw [Expr.eval_designator, Expr.eval_designator]
    cases ha : target.locate div A m with
    | error x =>
      rw [ha] at h
      rw [target.locate_congr h, ha]
      rfl
    | ok a =>
      rw [ha, List.forall_mem_append] at h
      rw [target.locate_congr h.1, ha]
      exact congrArg Except.ok (h.2 a (.head _))

end

end

/-! ## Arguments -/

section

variable (div : Word → Word → Option Word) (A : Activation) (m : Memory)

/-- What an argument passes: its value, or for a reference parameter the address of what it
denotes. -/
inductive Expr.Passes : Expr → (byReference : Bool) → Word → Prop
  | value {e : Expr} {w : Word} : e.eval div A m = .ok w → Expr.Passes e false w
  | reference {p : Position} {d : Designator} {slot : TypeSlot} {w : Word} :
      d.locate div A m = .ok w → Expr.Passes (.designator p d slot) true w

/-- The words that are read for what an argument passes. -/
def Expr.passedReads (e : Expr) (byReference : Bool) : List Word :=
  match byReference, e with
  | true, .designator _ d _ => d.reads div A m
  | true, .literal .. | true, .unary .. | true, .binary .. => []
  | false, e => e.reads div A m

end

/-! ## Statements -/

/-- How a statement ends. -/
inductive Ending where
  | finished (m : Memory)
  | trapped (trap : Trap) (m : Memory)

section

variable (div : Word → Word → Option Word) (A : Activation)

mutual

/-- A statement without calls that begins in a memory may end in the given way. -/
inductive Stmt.Exec : Memory → Stmt → Ending → Prop
  | assign {m : Memory} {p : Position} {d : Designator} {e : Expr} {a v : Word} :
      d.locate div A m = .ok a → e.eval div A m = .ok v →
      Stmt.Exec m (.assign p d e) (.finished (m.set a v))
  | assignTarget {m : Memory} {p : Position} {d : Designator} {e : Expr} {x : Trap} :
      d.locate div A m = .error x → Stmt.Exec m (.assign p d e) (.trapped x m)
  | assignValue {m : Memory} {p : Position} {d : Designator} {e : Expr} {a : Word} {x : Trap} :
      d.locate div A m = .ok a → e.eval div A m = .error x →
      Stmt.Exec m (.assign p d e) (.trapped x m)
  | ifCondition {m : Memory} {p : Position} {e : Expr} {s₁ s₂ : Stmt} {x : Trap} :
      e.eval div A m = .error x → Stmt.Exec m (.ifElse p e s₁ s₂) (.trapped x m)
  | ifTrue {m : Memory} {p : Position} {e : Expr} {s₁ s₂ : Stmt} {v : Word} {r : Ending} :
      e.eval div A m = .ok v → v ≠ 0 → s₁.Exec m r → Stmt.Exec m (.ifElse p e s₁ s₂) r
  | ifFalse {m : Memory} {p : Position} {e : Expr} {s₁ s₂ : Stmt} {r : Ending} :
      e.eval div A m = .ok 0 → s₂.Exec m r → Stmt.Exec m (.ifElse p e s₁ s₂) r
  | whileCondition {m : Memory} {p : Position} {e : Expr} {s : Stmt} {x : Trap} :
      e.eval div A m = .error x → Stmt.Exec m (.whileDo p e s) (.trapped x m)
  | whileDone {m : Memory} {p : Position} {e : Expr} {s : Stmt} :
      e.eval div A m = .ok 0 → Stmt.Exec m (.whileDo p e s) (.finished m)
  | whileStop {m m' : Memory} {p : Position} {e : Expr} {s : Stmt} {v : Word} {x : Trap} :
      e.eval div A m = .ok v → v ≠ 0 → s.Exec m (.trapped x m') →
      Stmt.Exec m (.whileDo p e s) (.trapped x m')
  | whileNext {m m' : Memory} {p : Position} {e : Expr} {s : Stmt} {v : Word} {r : Ending} :
      e.eval div A m = .ok v → v ≠ 0 → s.Exec m (.finished m') →
      Stmt.Exec m' (.whileDo p e s) r → Stmt.Exec m (.whileDo p e s) r
  | compound {m : Memory} {p : Position} {ss : List Stmt} {r : Ending} :
      Stmt.ExecOf m ss r → Stmt.Exec m (.compound p ss) r
  | empty {m : Memory} {p : Position} : Stmt.Exec m (.empty p) (.finished m)

/-- A list of statements without calls that begins in a memory may end in the given way. -/
inductive Stmt.ExecOf : Memory → List Stmt → Ending → Prop
  | nil {m : Memory} : Stmt.ExecOf m [] (.finished m)
  | stop {m m' : Memory} {s : Stmt} {ss : List Stmt} {x : Trap} :
      s.Exec m (.trapped x m') → Stmt.ExecOf m (s :: ss) (.trapped x m')
  | cons {m m' : Memory} {s : Stmt} {ss : List Stmt} {r : Ending} :
      s.Exec m (.finished m') → Stmt.ExecOf m' ss r → Stmt.ExecOf m (s :: ss) r

end

end

end Spl
