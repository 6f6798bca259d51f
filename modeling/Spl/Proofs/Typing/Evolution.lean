import Spl.Proofs.Outcome
import Spl.Proofs.SymbolTable.Laws
import Spl.Typing.Declarations

/-!
# The table while declarations are entered

Entering declarations opens scopes and puts new entries into them, and does nothing else to the
table. So what holds of every table that evolves from the predefined one holds of the table of a
program.

* `enterNew_evolves`: entering a name is an operation on tables.
* `enterDeclaration_evolves`, `enterDeclarations_evolves`: declarations are entered by such
  operations.
* `enterDeclarations_nested`: the scopes of the table lie inside one another.
-/

namespace Spl

open SymbolTable

variable {t₀ t : SymbolTable} {scope : ScopeId}

theorem enterNew_evolves (hr : t₀.Evolves t) (hs : t.HasScope scope) (name : String) (e : Entry)
    (p : Position) (cause : SemanticError) :
    Meets True (fun t' => t₀.Evolves t') (enterNew t scope name e p cause) := by
  unfold enterNew
  cases ht : t.enter? scope name e with
  | none => trivial
  | some t' =>
    refine hr.tail ⟨.enter scope name e, hs, ?_⟩
    rw [perform, ht]
    rfl

section
variable (h₀ : t₀.Nested) (hr : t₀.Evolves t)
include h₀ hr

theorem enterParameter_evolves (hs : t₀.HasScope scope) (d : ParamDecl) :
    (enterParameter scope t d).Meets True fun s _ => t₀.Evolves s.1 := by
  have hs' := (h₀.evolves hr).2.hasScope scope hs
  unfold enterParameter
  refine (Visit.Meets.of_true _).andThen fun e ty _ => ?_
  have he : Meets True (fun t' => t₀.Evolves t') (do
        if ty.isAggregate ∧ ¬d.isReference then
          Failure.report d.position (.aggregateByValue d.name)
        enterNew t scope d.name (.var { type := ty, isReference := d.isReference }) d.position
          (.redeclaredAsParameter d.name)) := by
    split
    · trivial
    · exact enterNew_evolves hr hs' d.name _ d.position _
  dsimp only
  split
  · next t' hx => exact he.of_ok hx
  · next e' hx => rw [hx] at he; exact he.of_error

theorem enterLocal_evolves (procedure : String) (hs : t₀.HasScope scope) (before : Word)
    (d : Binding TypeExpr) :
    (enterLocal procedure scope (t, before) d).Meets True fun s _ => t₀.Evolves s.1.1 := by
  have hs' := (h₀.evolves hr).2.hasScope scope hs
  unfold enterLocal
  refine (Visit.Meets.of_true _).andThen fun e ty _ => ?_
  have he : Meets True (fun s : SymbolTable × Word => t₀.Evolves s.1)
      ((liftM ty.byteSize : Verdict Word) >>= fun size =>
        enterNew t scope d.name (.var { type := ty, isReference := false }) d.position
          (.redeclaredAsVariable d.name) >>= fun t' =>
            addLocalSize procedure d.position before size >>= fun total => pure (t', total)) := by
    refine (Meets.of_true _).bind fun size _ => ?_
    refine (enterNew_evolves hr hs' d.name _ d.position _).bind fun t' ht' => ?_
    exact (Meets.of_true _).bind fun total _ => ht'
  dsimp only
  split
  · next s hx => exact he.of_ok hx
  · next e' hx => exact Spl.Meets.of_error ((congrArg (Spl.Meets True _) hx).mp he)

theorem enterType_evolves (d : Binding TypeExpr) :
    (enterType t d).Meets True fun _ t' => t₀.Evolves t' := by
  have hs := (h₀.evolves hr).1.hasGlobal
  unfold enterType
  split
  · trivial
  · refine (Visit.Meets.of_true _).andThen fun e ty _ => ?_
    exact enterNew_evolves hr hs d.name _ d.position _

theorem enterProcedure_evolves (d : ProcDecl) :
    (enterProcedure t d).Meets True fun _ t' => t₀.Evolves t' := by
  obtain ⟨hn, -⟩ := h₀.evolves hr
  have hr₁ : t₀.Evolves (t.newScope global).2 := hr.tail ⟨.newScope global, hn.hasGlobal, rfl⟩
  have hn₁ := hn.newScope hn.hasGlobal
  have hs : (t.newScope global).2.HasScope (t.newScope global).1 :=
    hasScope_newScope_iff.2 (.inr rfl)
  unfold enterProcedure
  -- The operations on the local scope are admissible from the table on that has it.
  rcases hx : t.newScope global with ⟨scope, t₁⟩
  rw [hx] at hr₁ hn₁ hs
  dsimp only at hr₁ hn₁ hs ⊢
  refine Visit.Meets.andThen (Visit.Meets.thread (I := fun t' _ _ _ => t₁.Evolves t')
    (fun b _ t' _ _ _ ht' => enterParameter_evolves hn₁ ht' hs b) .refl) fun s vs hs₁ => ?_
  refine Visit.Meets.andThen (Visit.Meets.thread (I := fun s _ _ _ => t₁.Evolves s.1)
    (fun b _ s _ _ _ hs' => enterLocal_evolves hn₁ hs' d.name hs s.2 b) hs₁) fun s _ hs₂ => ?_
  exact enterNew_evolves (hr₁.trans hs₂) ((hn₁.evolves hs₂).1.hasGlobal) d.name _ d.position _

theorem enterDeclaration_evolves (d : Decl) :
    (enterDeclaration t d).Meets True fun s _ => t₀.Evolves s.1 := by
  unfold enterDeclaration
  refine Visit.Meets.andThen (Q := fun _ t' => t₀.Evolves t') ?_ fun _ _ ht' => ht'
  cases d with
  | type d => exact .mapTree (enterType_evolves h₀ hr d)
  | procedure d => exact .mapTree (enterProcedure_evolves h₀ hr d)

end

/-- The table of a program evolves from the predefined one. -/
theorem enterDeclarations_evolves {entry : String} {p : Program}
    (h : (enterDeclarations entry p).answer = .ok t) : predefined.Evolves t := by
  have hm : (enterDeclarations entry p).Meets True fun _ t => predefined.Evolves t := by
    unfold enterDeclarations
    refine Visit.Meets.andThen (Visit.Meets.thread (I := fun t _ _ _ => predefined.Evolves t)
      (fun d _ t _ _ _ ht => enterDeclaration_evolves nested_predefined ht d) .refl)
      fun s _ hs => ?_
    exact (Meets.of_true _).bind fun _ _ => hs
  exact hm.of_ok h

/-- The scopes of the table of a program lie inside one another, and none has a name twice. -/
theorem enterDeclarations_nested {entry : String} {p : Program}
    (h : (enterDeclarations entry p).answer = .ok t) : t.Nested :=
  (nested_predefined.evolves (enterDeclarations_evolves h)).1

end Spl
