import Mathlib.Data.List.Forall2
import Spl.Frame.Allocation

/-!
# Allocation of two tables side by side

The allocation reads and writes procedures of the global scope and variables of local scopes, always
by their names. Two tables in which these reads come to the same, and stay so under the writes, are
allocated in step, also where the variables have other names in the second table.

* `InStep`: two steps that keep tables related, or both end in a fault; an overflow is the same in
  both.
* `Related`, `SameName`: relations between tables that reads and writes respect.
* `ProcDecl.Paired`: two declarations of a procedure.
* `allocate_inStep`: the allocation of two programs.
-/

namespace Spl

variable {R : SymbolTable → SymbolTable → Prop} {α β : Type}

/-! ## Steps -/

/-- Two faults are the same, unless neither is an overflow. -/
def Fault.Alike (f f' : Fault) : Prop := ∀ op, f = .overflow op ↔ f' = .overflow op

theorem Fault.Alike.eq {op : Overflow} {f : Fault} (h : Fault.Alike (.overflow op) f) :
    f = .overflow op := (h op).1 rfl

/-- Two steps end alike: with the same answer and related tables, or both in a fault. -/
inductive EndAlike (R : SymbolTable → SymbolTable → Prop) :
    EStateM.Result Fault SymbolTable α → EStateM.Result Fault SymbolTable α → Prop
  | ok {a : α} {t t' : SymbolTable} : R t t' → EndAlike R (.ok a t) (.ok a t')
  | error {f f' : Fault} {t t' : SymbolTable} : f.Alike f' → EndAlike R (.error f t) (.error f' t')

/-- From related tables, two steps end alike. -/
def InStep (R : SymbolTable → SymbolTable → Prop) (x y : Allocation α) : Prop :=
  ∀ t t', R t t' → EndAlike R (x t) (y t')

namespace InStep

variable {x y : Allocation α} {f f' : α → Allocation β}

theorem pure {a : α} : InStep R (Pure.pure a) (Pure.pure a) := fun _ _ hR => .ok hR

theorem throw {e e' : Fault} (h : e.Alike e') :
    InStep R (MonadExcept.throw e : Allocation α) (MonadExcept.throw e') := fun _ _ _ => .error h

theorem bind (h : InStep R x y) (hf : ∀ a, InStep R (f a) (f' a)) :
    InStep R (x >>= f) (y >>= f') := by
  intro t t' hR
  have h := h t t' hR
  show EndAlike R (EStateM.bind x f t) (EStateM.bind y f' t')
  unfold EStateM.bind
  generalize x t = o at h ⊢
  generalize y t' = o' at h ⊢
  cases h with
  | ok hR' => exact hf _ _ _ hR'
  | error h => exact .error h

/-- What is read of the two tables goes into the next steps. -/
theorem get_bind {f f' : SymbolTable → Allocation β}
    (h : ∀ t t', R t t' → EndAlike R (f t t) (f' t' t')) :
    InStep R (get >>= f) (get >>= f') := h

theorem modify {g g' : SymbolTable → SymbolTable} (h : ∀ t t', R t t' → R (g t) (g' t')) :
    InStep R (modify g : Allocation Unit) (modify g') := fun t t' hR => .ok (h t t' hR)

theorem lift (z : Except Fault α) :
    InStep R (liftM z : Allocation α) (liftM z : Allocation α) := by
  cases z with
  | ok a => exact pure
  | error e => exact throw fun _ => .rfl

theorem ok {a : α} {t t' u : SymbolTable} (h : InStep R x y) (hR : R t t')
    (hx : x.run t = .ok a u) : ∃ u', y.run t' = .ok a u' ∧ R u u' := by
  have h := h t t' hR
  rw [show x t = _ from hx] at h
  cases hy : y t' with
  | ok b u' =>
    rw [hy] at h
    cases h with
    | ok hR' => exact ⟨u', hy, hR'⟩
  | error e u' =>
    rw [hy] at h
    cases h

theorem error {e : Fault} {t t' u : SymbolTable} (h : InStep R x y) (hR : R t t')
    (hx : x.run t = .error e u) : ∃ e' u', y.run t' = .error e' u' ∧ e.Alike e' := by
  have h := h t t' hR
  rw [show x t = _ from hx] at h
  cases hy : y t' with
  | ok b u' =>
    rw [hy] at h
    cases h
  | error e' u' =>
    rw [hy] at h
    cases h with
    | error h => exact ⟨e', u', hy, h⟩

end InStep

/-! ## Related tables -/

/-- Related tables have the same procedures, and stay related when a procedure is changed that keeps
its local scope. -/
structure Related (R : SymbolTable → SymbolTable → Prop) : Prop where
  procedure_eq : ∀ t t', R t t' → ∀ n, t'.procedure? n = t.procedure? n
  updateProcedure : ∀ t t', R t t' → ∀ n (f : Procedure → Procedure),
    (∀ P, (f P).localScope = P.localScope) → R (t.updateProcedure n f) (t'.updateProcedure n f)

/-- In a scope of related tables, the name `n'` stands in the second one for the variable `n` of the
first one. -/
structure SameName (R : SymbolTable → SymbolTable → Prop) (scope : ScopeId) (n n' : String) :
    Prop where
  local_eq : ∀ t t', R t t' → t'.local? scope n' = t.local? scope n
  updateLocal : ∀ t t', R t t' → ∀ o : Option Word,
    R (t.updateLocal scope n ({ · with offset := o }))
      (t'.updateLocal scope n' ({ · with offset := o }))

/-- Two declarations of a procedure whose variables stand for one another. -/
structure ProcDecl.Paired (R : SymbolTable → SymbolTable → Prop) (d d' : ProcDecl) : Prop where
  name : d'.name = d.name
  calls : d'.calls.map (·.procedure) = d.calls.map (·.procedure)
  parameters : ∀ t t' P, R t t' → t.procedure? d.name = some P →
    List.Forall₂ (fun b b' => SameName R P.localScope b.name b'.name) d.parameters d'.parameters
  locals : ∀ t t' P, R t t' → t.procedure? d.name = some P →
    List.Forall₂ (fun b b' => SameName R P.localScope b.name b'.name) d.locals d'.locals

theorem placeSignature_inStep (h : Related R) (name : String) (P : Procedure) :
    InStep R (placeSignature name P) (placeSignature name P) := by
  unfold placeSignature
  refine .bind (.modify fun t t' hR => ?_) fun _ => .bind (.lift _) fun _ => .pure
  exact h.updateProcedure t t' hR name _ fun _ => rfl

theorem copyOffsets_inStep {scope : ScopeId} : ∀ {ps ps' : List ParamDecl} (vs : List Variable),
    List.Forall₂ (fun b b' => SameName R scope b.name b'.name) ps ps' →
    InStep R (copyOffsets scope (ps.zip vs)) (copyOffsets scope (ps'.zip vs))
  | [], _, _, h => by
    cases h
    exact .pure
  | _ :: _, _ :: _, [], _ => .pure
  | b :: ps, b' :: ps', v :: vs, h => by
    obtain ⟨hb, hps⟩ := List.forall₂_cons.1 h
    rw [List.zip_cons_cons, List.zip_cons_cons]
    unfold copyOffsets
    refine .get_bind fun t t' hR => ?_
    rw [hb.local_eq t t' hR]
    dsimp only
    split
    · exact .error fun _ => ⟨nofun, nofun⟩
    · exact InStep.bind (.modify fun t t' hR => hb.updateLocal t t' hR _)
        (fun _ => copyOffsets_inStep vs hps) t t' hR

theorem placeLocals_inStep {scope : ScopeId} : ∀ {bs bs' : List (Binding TypeExpr)} (before : Word),
    List.Forall₂ (fun b b' => SameName R scope b.name b'.name) bs bs' →
    InStep R (placeLocals scope before bs) (placeLocals scope before bs')
  | [], _, _, h => by
    cases h
    exact .pure
  | b :: bs, b' :: bs', before, h => by
    obtain ⟨hb, hbs⟩ := List.forall₂_cons.1 h
    unfold placeLocals
    refine .get_bind fun t t' hR => ?_
    rw [hb.local_eq t t' hR]
    cases t.local? scope b.name with
    | none => exact .error fun _ => ⟨nofun, nofun⟩
    | some v =>
      refine InStep.bind (.lift _) (fun _ => .bind (.lift _) fun size => .bind (.lift _)
        fun offset => ?_) t t' hR
      exact .bind (.modify fun t t' hR => hb.updateLocal t t' hR _)
        fun _ => placeLocals_inStep size hbs

/-- The outgoing area depends on the called procedures alone. -/
theorem outgoingBytes_congr {t t' : SymbolTable} (h : ∀ n, t'.procedure? n = t.procedure? n)
    {cs cs' : List Call} (hcs : cs'.map (·.procedure) = cs.map (·.procedure)) :
    outgoingBytes t' cs' = outgoingBytes t cs := by
  have hfrom : ∀ (cs cs' : List Call) (largest : Word),
      cs'.map (·.procedure) = cs.map (·.procedure) →
      outgoingBytesFrom t' largest cs' = outgoingBytesFrom t largest cs := by
    intro cs
    induction cs with
    | nil =>
      intro cs' largest hcs
      obtain rfl := List.map_eq_nil_iff.1 hcs
      rfl
    | cons c cs ih =>
      intro cs' largest hcs
      obtain ⟨c', cs'', rfl, hc, hcs⟩ := List.map_eq_cons_iff.1 hcs
      simp only [outgoingBytesFrom, hc, h, ih cs'' _ hcs]
  exact hfrom cs cs' 0 hcs

theorem allocateProcedure_inStep (h : Related R) (leaves : Bool) {d d' : ProcDecl}
    (hd : d.Paired R d') : InStep R (allocateProcedure leaves d) (allocateProcedure leaves d') := by
  have hempty : d'.calls.isEmpty = d.calls.isEmpty := by
    have := congrArg List.isEmpty hd.calls
    simpa only [List.isEmpty_map] using this
  unfold allocateProcedure
  rw [hd.name, hempty]
  refine .get_bind fun t t' hR => ?_
  rw [h.procedure_eq t t' hR]
  cases hP : t.procedure? d.name with
  | none => exact .error fun _ => ⟨nofun, nofun⟩
  | some P =>
    have hparameters := hd.parameters t t' P hR hP
    have hlocals := hd.locals t t' P hR hP
    refine InStep.bind (placeSignature_inStep h d.name P) (fun signature => ?_) t t' hR
    refine .bind (copyOffsets_inStep _ hparameters) fun _ => ?_
    refine .bind (placeLocals_inStep 0 hlocals) fun localArea => .get_bind fun t t' hR => ?_
    rw [outgoingBytes_congr (h.procedure_eq t t' hR) hd.calls]
    refine InStep.bind (.lift _) (fun outgoing => .modify fun t t' hR => ?_) t t' hR
    exact h.updateProcedure t t' hR d.name _ fun _ => rfl

/-- Two programs are allocated in step, procedure by procedure. -/
theorem allocate_inStep (h : Related R) (leaves : Bool) {p p' : Program}
    (hp : List.Forall₂ (ProcDecl.Paired R) p.procedures p'.procedures) :
    InStep R (allocate leaves p) (allocate leaves p') := by
  unfold allocate
  generalize p.procedures = ds at hp ⊢
  generalize p'.procedures = ds' at hp ⊢
  induction hp with
  | nil => exact .pure
  | cons hd _ ih => exact .bind (allocateProcedure_inStep h leaves hd) fun _ => ih

end Spl
