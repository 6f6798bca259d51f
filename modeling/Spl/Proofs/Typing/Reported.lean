import Spl.Compile
import Spl.Proofs.Ty.Text
import Spl.Proofs.Typing.Exact

/-!
# The types in errors

The types in a table and the types that errors mention are put together from the type expressions of
the program. So the fields of their records are fields that the program declares. Where an error
says that two types should have been the same, they are different.

* `Program.fieldNames`: the fields that a program declares.
* `SemanticError.Possible`: what is known of the types in an error.
* `Verdict.Reports`, `Visit.Reports`: what a rule or a visit reports is possible.
* `Stmt.check_reports`, `checkBodies_reports`: the check of bodies.
* `TypeExpr.resolve_reports`, `enterDeclarations_reports`: the declarations.
* `buildAndCheck_reports`: programs.

Nothing here depends on what the slots of the program hold.
-/

namespace Spl

open SymbolTable

variable {ns : List String} {t : SymbolTable} {scope : ScopeId}

/-! ## Names of fields -/

/-- The fields of all records in a type have names from a list. -/
def Ty.FieldsFrom (ns : List String) (ty : Ty) : Prop := ty.fieldNames ⊆ ns

/-- The types that an entry mentions. -/
def Entry.types : Entry → List Ty
  | .type ty => [ty]
  | .var v => [v.type]
  | .proc p => p.parameters.map Variable.type

/-- All types that a table mentions have fields with names from a list. -/
def SymbolTable.FieldsFrom (ns : List String) (t : SymbolTable) : Prop :=
  ∀ c ∈ t.scopes, ∀ e ∈ c.entries, ∀ ty ∈ e.2.types, ty.FieldsFrom ns

/-- What is known of the types in an error, if all fields have names from a list. Operands that do
not match have different types, and so has an argument that does not match its parameter. The types
of an assignment can be the same, because no record is assigned. -/
def SemanticError.Possible (ns : List String) : SemanticError → Prop
  | .binaryOperands _ s t | .argumentType _ _ s t => s ≠ t ∧ s.FieldsFrom ns ∧ t.FieldsFrom ns
  | .assignment s t => s.FieldsFrom ns ∧ t.FieldsFrom ns
  | .typeTooLarge ty | .unaryOperand _ ty | .ifCondition ty | .whileCondition ty | .indexType ty
  | .indexedType ty => ty.FieldsFrom ns
  | .redeclaredAsType _ | .redeclaredAsProcedure _ | .redeclaredAsVariable _
  | .redeclaredAsParameter _ | .duplicateField _ | .localsTooLarge _ | .undefinedType _
  | .notAType _ | .undefinedVariable _ | .notAVariable _ | .undefinedProcedure _
  | .notAProcedure _ | .notARecord _ | .noSuchField _ | .aggregateByValue _ | .entryMissing _
  | .entryNotAProcedure _ | .entryWithParameters _ | .assignmentToArray | .tooManyArguments _
  | .tooFewArguments _ | .argumentNotVariable _ _ => True

/-- A failure is a fault or a possible error. -/
def Failure.Possible (ns : List String) : Failure SemanticError → Prop
  | .error x => x.cause.Possible ns
  | .fault _ => True

/-- A rule that succeeds with `Q`, or fails with a fault or a possible error. -/
abbrev Verdict.Reports {α : Type} (ns : List String) (Q : α → Prop) (rule : Verdict α) : Prop :=
  Decides Q (Failure.Possible ns) rule

/-- A visit that succeeds with `Q`, or fails with a fault or a possible error. -/
abbrev Visit.Reports {τ α : Type} (ns : List String) (Q : τ → α → Prop)
    (v : SemanticVisit τ α) : Prop :=
  v.Decides Q fun _ f => f.Possible ns

section
variable {α β τ υ : Type}

theorem Verdict.Reports.bind {Q : α → Prop} {R : β → Prop} {rule : Verdict α} {f : α → Verdict β}
    (h : rule.Reports ns Q) (hf : ∀ a, Q a → (f a).Reports ns R) :
    Verdict.Reports ns R (rule >>= f) :=
  Decides.bind h hf fun _ hf => hf

theorem Verdict.Reports.guard {rule : Verdict Unit} {tree : τ} {next : SemanticVisit τ α}
    {Q : τ → α → Prop} : (rule.Reports ns fun _ => True) → next.Reports ns Q →
      Visit.Reports ns Q (match rule with | .error f => .fail tree f | .ok () => next) :=
  fun h hn => guard_decides h (fun _ hf => hf) fun _ => hn

theorem Visit.Reports.mono {Q Q' : τ → α → Prop} {v : SemanticVisit τ α} (h : v.Reports ns Q)
    (hQ : ∀ t a, Q t a → Q' t a) : v.Reports ns Q' :=
  Decides.mono h hQ fun _ _ hf => hf

theorem Visit.Reports.andThen {Q : τ → α → Prop} {R : υ → β → Prop} {v : SemanticVisit τ α}
    {stop : τ → υ} {next : τ → α → SemanticVisit υ β} (h : v.Reports ns Q)
    (hn : ∀ t a, Q t a → (next t a).Reports ns R) : (v.andThen stop next).Reports ns R :=
  Decides.andThen h (fun _ _ hf => hf) hn

/-- An invariant of the state, kept by each visit, holds after a list of visits. -/
theorem Visit.Reports.thread {σ : Type} {visit : σ → τ → SemanticVisit (σ × τ) α} {I : σ → Prop}
    {ts : List τ} {s : σ} (h : ∀ t ∈ ts, ∀ s, I s → (visit s t).Reports ns fun v _ => I v.1)
    (hs : I s) : (Visit.thread visit s ts).Reports ns fun v _ => I v.1 :=
  mono (Decides.thread (P := fun _ => True)
    (fun t ht s hs => (h t ht s hs).mono fun _ _ hv => ⟨hv, trivial⟩) hs) fun _ _ hv => hv.1

end

theorem Ty.fieldNames_subset {fields : List (String × Ty)} {name : String} {ty : Ty}
    (h : (name, ty) ∈ fields) : ty.fieldNames ⊆ fieldNamesOf fields := by
  induction fields with
  | nil => cases h
  | cons f fields ih =>
    obtain ⟨m, s⟩ := f
    intro n hn
    rw [fieldNamesOf, List.mem_cons, List.mem_append]
    rcases List.mem_cons.1 h with heq | h
    · cases heq
      exact .inr (.inl hn)
    · exact .inr (.inr (ih h hn))

theorem Ty.FieldsFrom.field {fields : List (String × Ty)} {name : String} {ty : Ty}
    (h : (Ty.record fields).FieldsFrom ns) (hty : fieldType? fields name = some ty) :
    ty.FieldsFrom ns :=
  List.Subset.trans (fieldNames_subset (mem_of_lookup hty)) h

/-! ## Tables -/

namespace SymbolTable.FieldsFrom

/-- The predefined types have no fields. -/
theorem predefined : SymbolTable.predefined.FieldsFrom ns := by
  have h : ∀ c ∈ SymbolTable.predefined.scopes, ∀ e ∈ c.entries, ∀ ty ∈ e.2.types,
      ty.fieldNames = [] := by decide
  intro c hc e he ty hty n hn
  rw [h c hc e he ty hty] at hn
  cases hn

theorem newScope (h : t.FieldsFrom ns) (parent : ScopeId) :
    (t.newScope parent).2.FieldsFrom ns := by
  intro c hc e he
  rcases List.mem_append.1 hc with hc | hc
  · exact h c hc e he
  · rw [List.mem_singleton.1 hc] at he
    cases he

theorem entries (h : t.FieldsFrom ns) (id : ScopeId) :
    ∀ e ∈ (t.scope id).entries, ∀ ty ∈ e.2.types, ty.FieldsFrom ns := by
  intro e he
  unfold SymbolTable.scope at he
  cases hid : t.scopes[id.index]? with
  | none =>
    rw [hid] at he
    cases he
  | some c =>
    rw [hid] at he
    exact h c (List.mem_of_getElem? hid) e he

theorem find? (h : t.FieldsFrom ns) {name : String} {e : Entry}
    (he : t.find? scope name = some e) : ∀ ty ∈ e.types, ty.FieldsFrom ns := by
  obtain ⟨id, -, hid⟩ := List.exists_of_findSome?_eq_some he
  exact h.entries id (name, e) (mem_of_lookup hid)

/-- After an entry, a table mentions what it did before, and what the entry mentions. -/
theorem enter? (h : t.FieldsFrom ns) {name : String} {e : Entry}
    (he : ∀ ty ∈ e.types, ty.FieldsFrom ns) {t' : SymbolTable}
    (ht : t.enter? scope name e = some t') : t'.FieldsFrom ns := by
  obtain ⟨-, rfl⟩ := enter?_eq_some_iff.1 ht
  intro c hc
  obtain ⟨i, hi⟩ := List.mem_iff_getElem?.1 hc
  rw [modifyScope, List.getElem?_modify] at hi
  obtain ⟨c₀, hc₀, rfl⟩ := Option.map_eq_some_iff.1 hi
  have hold := h c₀ (List.mem_of_getElem? hc₀)
  split
  · rw [Scope.add]
    exact List.forall_mem_append.2 ⟨hold, List.forall_mem_singleton.2 he⟩
  · exact hold

end SymbolTable.FieldsFrom

/-! ## Rules -/

/-- A node gets the type that its rule answers. -/
theorem conclude_reports {τ : Type} {slot : TypeSlot} {node : TypeSlot → τ} {rule : Verdict Ty}
    (h : rule.Reports ns (Ty.FieldsFrom ns)) :
    (conclude slot node rule).Reports ns fun _ ty => ty.FieldsFrom ns := by
  cases rule with
  | error f => exact h
  | ok ty =>
    unfold conclude
    dsimp only
    cases slot.fill ty with
    | ok _ => exact h
    | error _ => trivial

section
variable (ht : t.FieldsFrom ns)
include ht

theorem typeOfVariable_reports (p : Position) (name : String) :
    (typeOfVariable t scope p name).Reports ns (Ty.FieldsFrom ns) := by
  unfold typeOfVariable
  cases h : t.find? scope name with
  | none => trivial
  | some e =>
    cases e with
    | var v => exact ht.find? h v.type (.head _)
    | type _ => trivial
    | proc _ => trivial

theorem parametersOf_reports (c : Call) :
    (parametersOf t scope c).Reports ns fun vs => ∀ v ∈ vs, v.type.FieldsFrom ns := by
  unfold parametersOf
  cases h : t.find? scope c.procedure with
  | none => trivial
  | some e =>
    cases e with
    | proc P => exact List.forall_mem_map.1 (ht.find? h)
    | type _ => trivial
    | var _ => trivial

theorem typeOfName_reports (p : Position) (name : String) :
    (typeOfName t scope p name).Reports ns (Ty.FieldsFrom ns) := by
  unfold typeOfName
  cases h : t.find? scope name with
  | none => trivial
  | some e =>
    cases e with
    | type ty => exact ht.find? h ty (.head _)
    | var _ => trivial
    | proc _ => trivial

end

section
variable {s : Ty} (hs : s.FieldsFrom ns)
include hs

theorem checkIndex_reports (p : Position) :
    (checkIndex p s).Reports ns fun _ => True := by
  unfold checkIndex
  split
  · trivial
  · exact hs

theorem typeOfElement_reports (p : Position) :
    (typeOfElement p s).Reports ns (Ty.FieldsFrom ns) := by
  cases s with
  | array => exact hs
  | _ => exact hs

theorem typeOfField_reports (p : Position) (name : String) :
    (typeOfField p name s).Reports ns (Ty.FieldsFrom ns) := by
  cases s with
  | record fields =>
    unfold typeOfField
    dsimp only
    cases hf : Ty.fieldType? fields name with
    | none => trivial
    | some ty => exact hs.field hf
  | _ => trivial

theorem typeOfUnary_reports (p : Position) (op : UnaryOp) :
    (typeOfUnary p op s).Reports ns (Ty.FieldsFrom ns) := by
  unfold typeOfUnary
  split
  · exact hs
  · exact hs

theorem checkSize_reports (p : Position) :
    (checkSize p s).Reports ns (Ty.FieldsFrom ns) := by
  unfold checkSize
  split
  · exact hs
  · exact hs

variable {s' : Ty} (hs' : s'.FieldsFrom ns)
include hs'

theorem typeOfBinary_reports (p : Position) (op : BinaryOp) :
    (typeOfBinary p op s s').Reports ns (Ty.FieldsFrom ns) := by
  unfold typeOfBinary
  split
  · cases op with
    | arith _ => exact List.nil_subset ns
    | compare _ => exact List.nil_subset ns
  · next h => exact ⟨h, hs, hs'⟩

theorem checkAssignment_reports (p : Position) :
    (checkAssignment p s s').Reports ns fun _ => True := by
  unfold checkAssignment
  split
  · exact ⟨hs, hs'⟩
  · trivial
  · split
    · trivial
    · exact ⟨hs, hs'⟩
  · split
    · trivial
    · exact ⟨hs, hs'⟩

end

theorem checkCondition_reports {p : Position} {cause : Ty → SemanticError} {s : Ty}
    (hcause : (cause s).Possible ns) :
    (checkCondition p cause s).Reports ns fun _ => True := by
  unfold checkCondition
  split
  · trivial
  · exact hcause

theorem checkCount_reports (c : Call) (vs : List Variable) :
    (checkCount c vs).Reports ns fun _ => True := by
  unfold checkCount
  split
  · trivial
  · split
    · trivial
    · trivial

/-- An argument that does not match its parameter has another type. -/
theorem checkArguments_reports (procedure : String) : ∀ (n : Nat) (es : List Expr) {ss : List Ty}
    {vs : List Variable}, (∀ s ∈ ss, s.FieldsFrom ns) → (∀ v ∈ vs, v.type.FieldsFrom ns) →
    (checkArguments procedure n es ss vs).Reports ns fun _ => True
  | n, e :: es, s :: ss, v :: vs, hs, hv => by
    rw [List.forall_mem_cons] at hs hv
    have hfirst : (checkArgument procedure n e s v).Reports ns fun _ => True := by
      unfold checkArgument
      split
      · next hne => exact ⟨fun h => hne h.symm, hv.1, hs.1⟩
      · split
        · trivial
        · trivial
    unfold checkArguments
    exact Verdict.Reports.bind hfirst fun _ _ =>
      checkArguments_reports procedure (n + 1) es hs.2 hv.2
  | _, [], _, _, _, _ => trivial
  | _, _ :: _, [], _, _, _ => trivial
  | _, _ :: _, _ :: _, [], _, _ => trivial

/-! ## Bodies -/

mutual

/-- The type of an expression has fields from the list, and so have the types in an error. -/
theorem Expr.check_reports (ht : t.FieldsFrom ns) : ∀ e : Expr,
    (e.check t scope).Reports ns fun _ ty => ty.FieldsFrom ns
  | .literal p value slot => by
    unfold Expr.check
    exact conclude_reports (List.nil_subset ns)
  | .designator p d slot => by
    unfold Expr.check
    refine (d.check_reports ht).andThen fun d' ty hty => ?_
    exact conclude_reports hty
  | .unary p op e slot => by
    unfold Expr.check
    refine (e.check_reports ht).andThen fun e' ty hty => ?_
    exact conclude_reports (typeOfUnary_reports hty p op)
  | .binary p op l r slot => by
    unfold Expr.check
    refine (l.check_reports ht).andThen fun l' ty hl => ?_
    refine (r.check_reports ht).andThen fun r' ty' hr => ?_
    exact conclude_reports (typeOfBinary_reports hl hr p op)

/-- A designator leads to parts of variables. -/
theorem Designator.check_reports (ht : t.FieldsFrom ns) : ∀ d : Designator,
    (d.check t scope).Reports ns fun _ ty => ty.FieldsFrom ns
  | .named p name slot => by
    unfold Designator.check
    exact conclude_reports (typeOfVariable_reports ht p name)
  | .element p array index slot => by
    unfold Designator.check
    refine (index.check_reports ht).andThen fun i ty hi => ?_
    refine Verdict.Reports.guard (checkIndex_reports hi p) ?_
    refine (array.check_reports ht).andThen fun a ty' ha => ?_
    exact conclude_reports (typeOfElement_reports ha p)
  | .field p record name slot => by
    unfold Designator.check
    refine (record.check_reports ht).andThen fun r ty hr => ?_
    exact conclude_reports (typeOfField_reports hr p name)

end

theorem Call.check_reports (ht : t.FieldsFrom ns) (c : Call) :
    (c.check t scope).Reports ns fun _ _ => True := by
  unfold Call.check
  have hp : (parametersOf t scope c).Reports ns fun vs => ∀ v ∈ vs, v.type.FieldsFrom ns :=
    parametersOf_reports ht c
  cases hvs : parametersOf t scope c with
  | error f =>
    rw [hvs] at hp
    exact hp
  | ok vs =>
    rw [hvs] at hp
    refine Visit.Reports.andThen (Visit.Decides.list fun e _ => Expr.check_reports ht e)
      fun es tys htys => ?_
    exact (checkCount_reports c vs).bind fun _ _ =>
      checkArguments_reports c.procedure 1 es htys hp

namespace Stmt

mutual

/-- The scopes that a statement opens are empty, so the table mentions no more types than before. -/
theorem check_reports : ∀ (s : Stmt) {t : SymbolTable} {scope : ScopeId}, t.FieldsFrom ns →
    (s.check scope t).Reports ns fun v _ => v.1.FieldsFrom ns
  | .assign p d e, t, scope, ht => by
    unfold check
    refine (d.check_reports ht).andThen fun d' ty hd => ?_
    refine (e.check_reports ht).andThen fun e' ty' he => ?_
    exact (checkAssignment_reports hd he p).mono (fun _ _ => ht) fun _ hf => hf
  | .ifElse p e s₁ s₂, t, scope, ht => by
    unfold check
    refine (e.check_reports ht).andThen fun e' ty he => ?_
    refine Verdict.Reports.guard (checkCondition_reports he) ?_
    refine (s₁.check_reports ht).andThen fun v _ hv => ?_
    exact .mapTree (s₂.check_reports hv)
  | .whileDo p e s, t, scope, ht => by
    unfold check
    refine (e.check_reports ht).andThen fun e' ty he => ?_
    refine Verdict.Reports.guard (checkCondition_reports he) ?_
    exact .mapTree (s.check_reports ht)
  | .call c, t, scope, ht => by
    unfold check
    exact .mapTree ((c.check_reports ht).mono fun _ _ _ => ht)
  | .compound p ss, t, scope, ht => by
    unfold check
    exact .mapTree (checkList_reports ss (ht.newScope scope))
  | .empty p, t, scope, ht => ht

theorem checkList_reports : ∀ (ss : List Stmt) {t : SymbolTable} {scope : ScopeId},
    t.FieldsFrom ns → (checkList scope t ss).Reports ns fun v _ => v.1.FieldsFrom ns
  | [], t, scope, ht => ht
  | s :: ss, t, scope, ht => by
    unfold checkList
    refine (s.check_reports ht).andThen fun v _ hv => ?_
    exact .mapTree (checkList_reports ss hv)

end

end Stmt

theorem checkBodies_reports (ht : t.FieldsFrom ns) (p : Program) :
    (checkBodies t p).Reports ns fun v _ => v.1.FieldsFrom ns := by
  unfold checkBodies
  refine .map (.mapTree (Visit.Reports.thread (fun d _ t ht => ?_) ht))
  cases d with
  | type d => exact ht
  | procedure d =>
    unfold Decl.checkBody
    dsimp only
    cases t.procedure? d.name with
    | none => trivial
    | some P =>
      exact .mapTree (Stmt.checkList_reports d.body ht)

/-! ## Declarations -/

theorem subset_of_flatMap_subset {α β : Type} {f : α → List β} {xs : List α} {ys : List β}
    (h : xs.flatMap f ⊆ ys) : ∀ x ∈ xs, f x ⊆ ys :=
  fun x hx _ hy => h (List.mem_flatMap.2 ⟨x, hx, hy⟩)

namespace TypeExpr

mutual

/-- The names of the fields of all records in a type expression. -/
def fieldNames : TypeExpr → List String
  | .named .. => []
  | .array _ _ base _ => base.fieldNames
  | .record _ fields _ => fieldNamesOf fields

/-- The names of the given fields, and of the fields in their type expressions. -/
def fieldNamesOf : List (Binding TypeExpr) → List String
  | [] => []
  | ⟨_, name, type⟩ :: fields => name :: (type.fieldNames ++ fieldNamesOf fields)

end

theorem checkFieldNames_reports {τ : Type} : ∀ (seen : List String) (fields : List (Binding τ)),
    (checkFieldNames seen fields).Reports ns fun _ => True
  | _, [] => trivial
  | seen, f :: fields => by
    unfold checkFieldNames
    split
    · trivial
    · exact checkFieldNames_reports (f.name :: seen) fields

mutual

/-- The type that an expression denotes has the fields of the expression and of declared types. -/
theorem resolve_reports (ht : t.FieldsFrom ns) : ∀ e : TypeExpr, e.fieldNames ⊆ ns →
    (e.resolve t scope).Reports ns fun _ ty => ty.FieldsFrom ns
  | .named p name slot, _ => by
    unfold resolve
    exact conclude_reports (typeOfName_reports ht p name)
  | .array p size base slot, he => by
    unfold resolve
    refine (base.resolve_reports ht he).andThen fun b ty hb => ?_
    exact conclude_reports (checkSize_reports (s := .array size ty) hb p)
  | .record p fields slot, he => by
    unfold resolve
    refine Verdict.Reports.guard (checkFieldNames_reports [] fields) ?_
    refine (resolveFields_reports ht fields he).andThen fun fs tys hfs => ?_
    exact conclude_reports (checkSize_reports (s := .record tys) hfs p)

theorem resolveFields_reports (ht : t.FieldsFrom ns) : ∀ fields : List (Binding TypeExpr),
    fieldNamesOf fields ⊆ ns →
    (resolveFields t scope fields).Reports ns fun _ tys => Ty.fieldNamesOf tys ⊆ ns
  | [], _ => List.nil_subset ns
  | ⟨p, name, e⟩ :: fields, h => by
    simp only [fieldNamesOf, List.cons_subset, List.append_subset] at h
    obtain ⟨hname, he, hfields⟩ := h
    unfold resolveFields
    refine (e.resolve_reports ht he).andThen fun e' ty hty => ?_
    refine .map (.mapTree ((resolveFields_reports ht fields hfields).mono fun _ tys htys => ?_))
    simp only [Ty.fieldNamesOf, List.cons_subset, List.append_subset]
    exact ⟨hname, hty, htys⟩

end

end TypeExpr

theorem enterNew_reports (ht : t.FieldsFrom ns) {name : String} {e : Entry} {p : Position}
    {cause : SemanticError} (he : ∀ ty ∈ e.types, ty.FieldsFrom ns) (hcause : cause.Possible ns) :
    (enterNew t scope name e p cause).Reports ns (SymbolTable.FieldsFrom ns) := by
  unfold enterNew
  cases h : t.enter? scope name e with
  | none => exact hcause
  | some t' => exact ht.enter? he h

theorem enterParameter_reports (ht : t.FieldsFrom ns) {d : ParamDecl}
    (hd : d.type.fieldNames ⊆ ns) :
    (enterParameter scope t d).Reports ns fun v w => v.1.FieldsFrom ns ∧ w.type.FieldsFrom ns := by
  unfold enterParameter
  refine (d.type.resolve_reports ht hd).andThen fun e ty hty => ?_
  have hentered : Verdict.Reports ns (SymbolTable.FieldsFrom ns) (do
      if ty.isAggregate ∧ ¬d.isReference then
        Failure.report d.position (.aggregateByValue d.name)
      enterNew t scope d.name (.var { type := ty, isReference := d.isReference }) d.position
        (.redeclaredAsParameter d.name)) := by
    split
    · trivial
    · exact enterNew_reports ht (List.forall_mem_singleton.2 hty) trivial
  dsimp only
  split
  · next t' h => exact ⟨hentered.of_ok h, hty⟩
  · next f h => exact hentered.of_error h

theorem addLocalSize_reports (procedure : String) (p : Position) (before size : Word) :
    (addLocalSize procedure p before size).Reports ns fun _ => True := by
  unfold addLocalSize
  split
  · split
    · trivial
    · trivial
  · trivial

theorem liftM_reports {α : Type} (x : Except Fault α) :
    (liftM x : Verdict α).Reports ns fun _ => True := by
  cases x with
  | ok _ => trivial
  | error _ => trivial

theorem enterLocal_reports (procedure : String) (ht : t.FieldsFrom ns) (before : Word)
    {d : Binding TypeExpr} (hd : d.type.fieldNames ⊆ ns) :
    (enterLocal procedure scope (t, before) d).Reports ns fun v _ => v.1.1.FieldsFrom ns := by
  unfold enterLocal
  refine (d.type.resolve_reports ht hd).andThen fun e ty hty => ?_
  have hentered : Verdict.Reports ns (fun s : SymbolTable × Word => s.1.FieldsFrom ns) (do
        let size ← (ty.byteSize : Verdict Word)
        let t ← enterNew t scope d.name (.var { type := ty, isReference := false }) d.position
          (.redeclaredAsVariable d.name)
        return (t, ← addLocalSize procedure d.position before size)) := by
    refine (liftM_reports ty.byteSize).bind fun size _ => ?_
    refine Verdict.Reports.bind (Q := SymbolTable.FieldsFrom ns) ?_ fun t' ht' => ?_
    · exact enterNew_reports ht (List.forall_mem_singleton.2 hty) trivial
    · exact (addLocalSize_reports procedure d.position before size).bind fun _ _ => ht'
  dsimp only
  split
  · next s h => exact hentered.of_ok h
  · next f h => exact hentered.of_error h

theorem enterType_reports (ht : t.FieldsFrom ns) {d : Binding TypeExpr}
    (hd : d.type.fieldNames ⊆ ns) :
    (enterType t d).Reports ns fun _ t' => t'.FieldsFrom ns := by
  unfold enterType
  split
  · trivial
  · refine (d.type.resolve_reports ht hd).andThen fun e ty hty => ?_
    exact enterNew_reports ht (List.forall_mem_singleton.2 hty) trivial

/-- The names of the fields of all records in the declarations of a procedure. -/
def ProcDecl.fieldNames (d : ProcDecl) : List String :=
  d.parameters.flatMap (·.type.fieldNames) ++ d.locals.flatMap (·.type.fieldNames)

theorem enterProcedure_reports (ht : t.FieldsFrom ns) {d : ProcDecl} (hd : d.fieldNames ⊆ ns) :
    (enterProcedure t d).Reports ns fun _ t' => t'.FieldsFrom ns := by
  obtain ⟨hparameters, hlocals⟩ := List.append_subset.1 hd
  replace hparameters := subset_of_flatMap_subset hparameters
  replace hlocals := subset_of_flatMap_subset hlocals
  have ht₁ := ht.newScope global
  unfold enterProcedure
  rcases hx : t.newScope global with ⟨scope, t₁⟩
  rw [hx] at ht₁
  dsimp only
  refine Visit.Reports.andThen (Visit.Decides.thread (I := SymbolTable.FieldsFrom ns)
    (fun b hb t ht => enterParameter_reports ht (hparameters b hb)) ht₁) fun v vs hv => ?_
  refine Visit.Reports.andThen (Visit.Reports.thread
    (I := fun s : SymbolTable × Word => s.1.FieldsFrom ns)
    (fun b hb s hs => enterLocal_reports d.name hs s.2 (hlocals b hb)) hv.1) fun w _ hw => ?_
  exact enterNew_reports hw (List.forall_mem_map.2 hv.2) trivial

/-- The names of the fields of all records in a declaration. -/
def Decl.fieldNames : Decl → List String
  | .type d => d.type.fieldNames
  | .procedure d => d.fieldNames

theorem enterDeclaration_reports (ht : t.FieldsFrom ns) {d : Decl} (hd : d.fieldNames ⊆ ns) :
    (enterDeclaration t d).Reports ns fun v _ => v.1.FieldsFrom ns := by
  unfold enterDeclaration
  refine Visit.Reports.andThen (Q := fun _ t' => t'.FieldsFrom ns) ?_ fun _ _ ht' => ht'
  cases d with
  | type d => exact .mapTree (enterType_reports ht hd)
  | procedure d => exact .mapTree (enterProcedure_reports ht hd)

theorem checkEntry_reports (entry : String) (p : Program) :
    (checkEntry entry p).Reports ns fun _ => True := by
  unfold checkEntry
  split
  · trivial
  · trivial
  · split
    · trivial
    · trivial

/-! ## Programs -/

/-- The names of the fields of all records in a program. -/
def Program.fieldNames (p : Program) : List String := p.declarations.flatMap Decl.fieldNames

theorem enterDeclarations_reports (entry : String) (p : Program) :
    (enterDeclarations entry p).Reports p.fieldNames fun _ t => t.FieldsFrom p.fieldNames := by
  unfold enterDeclarations
  refine Visit.Reports.andThen (Visit.Reports.thread (I := SymbolTable.FieldsFrom p.fieldNames)
    (fun d hd t ht => ?_) .predefined) fun v _ hv => ?_
  · exact enterDeclaration_reports ht (subset_of_flatMap_subset (List.Subset.refl _) d hd)
  · exact (checkEntry_reports entry p).bind fun _ _ => hv

/-- The types in the table of a program, and in an error of the program, have fields that the
program declares. -/
theorem buildAndCheck_reports (o : Options) (p : Program) :
    (buildAndCheck o p).Reports p.fieldNames fun _ t => t.FieldsFrom p.fieldNames := by
  unfold buildAndCheck
  refine (enterDeclarations_reports o.entry p).andThen fun q t ht => ?_
  have hbodies := checkBodies_reports ht q
  rcases hv : checkBodies t q with ⟨⟨t', q'⟩, x⟩
  rw [hv] at hbodies
  cases x with
  | ok _ => exact hbodies
  | error f => exact hbodies

end Spl
