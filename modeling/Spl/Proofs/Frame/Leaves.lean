import Spl.Proofs.Frame.Allocation

/-!
# Leaf frames

The option for leaf frames changes the marks of frames and nothing else: with the marks removed, the
allocation is the one without the option, step by step. A table is built without any mark, so the
two allocations of a program begin in the same table.

* `SymbolTable.unmarked`: a table with the marks of leaf frames removed.
* `Mirrors`: a step that does the same where the marks are removed.
* `allocate_mirrors`: the allocation.
* `buildAndCheck_unmarked`: the first two phases mark nothing.
-/

namespace Spl

open SymbolTable

/-! ## Tables without marks -/

/-- A procedure whose frame is not marked as a leaf frame. -/
def Procedure.unmarked (P : Procedure) : Procedure :=
  { P with layout := { P.layout with isLeaf := false } }

/-- An entry whose frame is not marked. -/
def Entry.unmarked : Entry → Entry := mapProcedure Procedure.unmarked

/-- A scope without marked frames. -/
def Scope.unmarked (s : Scope) : Scope :=
  { s with entries := s.entries.map fun x => (x.1, x.2.unmarked) }

/-- A table without marked frames. -/
def SymbolTable.unmarked (t : SymbolTable) : SymbolTable := ⟨t.scopes.map Scope.unmarked⟩

namespace Scope

variable {s : Scope} {name : String} {e : Entry} {f f' : Entry → Entry}

theorem get?_unmarked : s.unmarked.get? name = (s.get? name).map Entry.unmarked := by
  unfold get? unmarked
  induction s.entries with
  | nil => rfl
  | cons x l ih =>
    rw [List.map_cons, lookup_cons_eq_ite, ih, ← Prod.eta x, lookup_cons_eq_ite]
    split <;> rfl

theorem declares_unmarked : s.unmarked.declares name = s.declares name := by
  rw [declares, get?_unmarked, Option.isSome_map, declares]

theorem unmarked_add : (s.add name e).unmarked = s.unmarked.add name e.unmarked := by
  simp [unmarked, add]

theorem unmarked_update (hf : ∀ e, (f e).unmarked = f' e.unmarked) :
    (s.update name f).unmarked = s.unmarked.update name f' := by
  simp only [unmarked, update, List.map_map]
  congr 1
  refine List.map_congr_left fun x _ => ?_
  simp only [Function.comp_apply]
  split
  · rw [hf]
  · rfl

end Scope

namespace SymbolTable

variable {t : SymbolTable} {id : ScopeId} {name : String}

theorem scope_unmarked : t.unmarked.scope id = (t.scope id).unmarked := by
  unfold scope unmarked
  rw [List.getElem?_map]
  cases t.scopes[id.index]? <;> rfl

theorem chain_unmarked : t.unmarked.chain id = t.chain id := by
  rw [chain, scope_unmarked]
  rfl

theorem declaring?_unmarked : t.unmarked.declaring? id name = t.declaring? id name := by
  unfold declaring?
  rw [chain_unmarked]
  congr 1
  funext s
  rw [scope_unmarked, Scope.declares_unmarked]

theorem local?_unmarked : t.unmarked.local? id name = t.local? id name := by
  unfold local?
  rw [scope_unmarked, Scope.get?_unmarked]
  cases (t.scope id).get? name with
  | none => rfl
  | some e => cases e <;> rfl

/-- A name stands for the same entry, up to its mark. -/
theorem find?_unmarked : t.unmarked.find? id name = (t.find? id name).map Entry.unmarked := by
  unfold find?
  rw [chain_unmarked, List.map_findSome?]
  congr 1
  funext s
  rw [scope_unmarked, Scope.get?_unmarked]
  rfl

theorem procedure?_unmarked :
    t.unmarked.procedure? name = (t.procedure? name).map Procedure.unmarked := by
  unfold procedure?
  rw [scope_unmarked, Scope.get?_unmarked]
  cases (t.scope global).get? name with
  | none => rfl
  | some e => cases e <;> rfl

theorem unmarked_modifyScope {f k : Scope → Scope} (hf : ∀ s, (f s).unmarked = k s.unmarked) :
    (t.modifyScope id f).unmarked = t.unmarked.modifyScope id k := by
  refine congrArg SymbolTable.mk (List.ext_getElem? fun i => ?_)
  simp only [modifyScope, unmarked, List.getElem?_map, List.getElem?_modify]
  cases t.scopes[i]? with
  | none => rfl
  | some s =>
    simp only [Option.map_some, Option.map_eq_map]
    split
    · rw [hf]
    · rfl

theorem unmarked_updateProcedure {f f' : Procedure → Procedure}
    (hf : ∀ P, (f P).unmarked = f' P.unmarked) :
    (t.updateProcedure name f).unmarked = t.unmarked.updateProcedure name f' := by
  have he : ∀ e : Entry, (e.mapProcedure f).unmarked = e.unmarked.mapProcedure f' := fun e => by
    cases e with
    | proc P => exact congrArg Entry.proc (hf P)
    | type _ => rfl
    | var _ => rfl
  unfold updateProcedure update
  rw [declaring?_unmarked]
  cases t.declaring? global name with
  | none => rfl
  | some s => exact unmarked_modifyScope fun s => Scope.unmarked_update he

theorem unmarked_updateLocal {f : Variable → Variable} :
    (t.updateLocal id name f).unmarked = t.unmarked.updateLocal id name f := by
  refine unmarked_modifyScope fun s => Scope.unmarked_update fun e => ?_
  cases e <;> rfl

theorem unmarked_newScope : (t.newScope id).2.unmarked = (t.unmarked.newScope id).2 := by
  unfold newScope
  dsimp only
  rw [scope_unmarked]
  simp [unmarked, Scope.unmarked]

end SymbolTable

/-! ## Allocation -/

/-- The outcome of a step, with the marks removed from its table. -/
def unmarkOutcome {α : Type} :
    EStateM.Result Fault SymbolTable α → EStateM.Result Fault SymbolTable α
  | .ok a t => .ok a t.unmarked
  | .error f t => .error f t.unmarked

/-- Where the marks have been removed, the second step ends as the first one, with the marks
removed. -/
def Mirrors {α : Type} (x y : Allocation α) : Prop := ∀ t, y t.unmarked = unmarkOutcome (x t)

namespace Mirrors

variable {α β : Type} {x y : Allocation α} {f f' : α → Allocation β}

theorem pure {a : α} : Mirrors (Pure.pure a) (Pure.pure a) := fun _ => rfl

theorem throw {e : Fault} :
    Mirrors (MonadExcept.throw e : Allocation α) (MonadExcept.throw e) := fun _ => rfl

theorem bind (h : Mirrors x y) (hf : ∀ a, Mirrors (f a) (f' a)) :
    Mirrors (x >>= f) (y >>= f') := by
  intro t
  show EStateM.bind y f' t.unmarked = unmarkOutcome (EStateM.bind x f t)
  unfold EStateM.bind
  rw [h t]
  cases x t with
  | ok a t' => exact hf a t'
  | error e t' => rfl

theorem get_bind {f f' : SymbolTable → Allocation β} (h : ∀ t, Mirrors (f t) (f' t.unmarked)) :
    Mirrors (get >>= f) (get >>= f') := fun t => h t t

theorem modify {g g' : SymbolTable → SymbolTable} (h : ∀ t, (g t).unmarked = g' t.unmarked) :
    Mirrors (modify g : Allocation Unit) (modify g') :=
  fun t => congrArg (EStateM.Result.ok ()) (h t).symm

theorem lift (z : Except Fault α) :
    Mirrors (liftM z : Allocation α) (liftM z : Allocation α) := by
  cases z with
  | ok a => exact pure
  | error e => exact throw

end Mirrors

theorem placeSignature_mirrors (name : String) (P : Procedure) :
    Mirrors (placeSignature name P) (placeSignature name P.unmarked) := by
  unfold placeSignature
  refine .bind (.modify fun t => unmarked_updateProcedure fun _ => rfl) fun _ => ?_
  exact .bind (.lift _) fun _ => .pure

theorem copyOffsets_mirrors (scope : ScopeId) : ∀ ps : List (ParamDecl × Variable),
    Mirrors (copyOffsets scope ps) (copyOffsets scope ps)
  | [] => .pure
  | (d, v) :: ps => by
    unfold copyOffsets
    refine .get_bind fun t => ?_
    rw [local?_unmarked]
    dsimp only
    split
    · exact fun _ => rfl
    · exact .bind (.modify fun t => unmarked_updateLocal) fun _ => copyOffsets_mirrors scope ps

theorem placeLocals_mirrors (scope : ScopeId) : ∀ (ds : List (Binding TypeExpr)) (before : Word),
    Mirrors (placeLocals scope before ds) (placeLocals scope before ds)
  | [], before => .pure
  | d :: ds, before => by
    unfold placeLocals
    refine .get_bind fun t => ?_
    rw [local?_unmarked]
    cases t.local? scope d.name with
    | none => exact .throw
    | some v =>
      refine .bind (.lift _) fun bytes => .bind (.lift _) fun size =>
        .bind (.lift _) fun offset => ?_
      exact .bind (.modify fun t => unmarked_updateLocal) fun _ => placeLocals_mirrors scope ds size

theorem outgoingBytes_unmarked (t : SymbolTable) (cs : List Call) :
    outgoingBytes t.unmarked cs = outgoingBytes t cs := by
  have h : ∀ largest, outgoingBytesFrom t.unmarked largest cs = outgoingBytesFrom t largest cs := by
    induction cs with
    | nil => exact fun _ => rfl
    | cons c cs ih =>
      intro largest
      simp only [outgoingBytesFrom, procedure?_unmarked, ih]
      cases t.procedure? c.procedure <;> rfl
  exact h 0

theorem allocateProcedure_mirrors (leaves : Bool) (d : ProcDecl) :
    Mirrors (allocateProcedure leaves d) (allocateProcedure false d) := by
  unfold allocateProcedure
  refine .get_bind fun t => ?_
  rw [procedure?_unmarked]
  cases t.procedure? d.name with
  | none => exact .throw
  | some P =>
    refine .bind (placeSignature_mirrors d.name P) fun signature => ?_
    refine .bind (copyOffsets_mirrors P.localScope _) fun _ => ?_
    refine .bind (placeLocals_mirrors P.localScope d.locals 0) fun localArea =>
      .get_bind fun t => ?_
    rw [outgoingBytes_unmarked]
    exact .bind (.lift _) fun outgoing => .modify fun t => unmarked_updateProcedure fun _ => rfl

/-- Allocation with leaf frames does what allocation without them does, up to the marks. -/
theorem allocate_mirrors (leaves : Bool) (p : Program) :
    Mirrors (allocate leaves p) (allocate false p) := by
  unfold allocate
  induction p.procedures with
  | nil => exact .pure
  | cons d ds ih => exact .bind (allocateProcedure_mirrors leaves d) fun _ => ih

/-! ## The first two phases -/

/-- A table in which no frame is marked. -/
def SymbolTable.IsUnmarked (t : SymbolTable) : Prop := t.unmarked = t

section

variable {t : SymbolTable}

theorem SymbolTable.IsUnmarked.newScope (h : t.IsUnmarked) (id : ScopeId) :
    (t.newScope id).2.IsUnmarked := by
  unfold IsUnmarked at *
  rw [unmarked_newScope, h]

theorem enterNew_unmarked (h : t.IsUnmarked) {e : Entry} (he : e.unmarked = e) (scope : ScopeId)
    (name : String) (p : Position) (cause : SemanticError) :
    Meets True IsUnmarked (enterNew t scope name e p cause) := by
  unfold enterNew
  cases ht : t.enter? scope name e with
  | none => trivial
  | some t' =>
    obtain ⟨-, rfl⟩ := enter?_eq_some_iff.1 ht
    show SymbolTable.unmarked _ = _
    rw [unmarked_modifyScope (k := (·.add name e.unmarked)) fun s => Scope.unmarked_add, he, h]

theorem enterParameter_unmarked (h : t.IsUnmarked) (scope : ScopeId) (d : ParamDecl) :
    (enterParameter scope t d).Meets True fun s _ => s.1.IsUnmarked := by
  unfold enterParameter
  refine (Visit.Meets.of_true _).andThen fun e ty _ => ?_
  have he : Meets True IsUnmarked (do
        if ty.isAggregate ∧ ¬d.isReference then
          Failure.report d.position (.aggregateByValue d.name)
        enterNew t scope d.name (.var { type := ty, isReference := d.isReference }) d.position
          (.redeclaredAsParameter d.name)) := by
    split
    · trivial
    · exact enterNew_unmarked h rfl scope d.name d.position _
  dsimp only
  split
  · next t' hx => exact he.of_ok hx
  · next e' hx => rw [hx] at he; exact he.of_error

theorem enterLocal_unmarked (procedure : String) (h : t.IsUnmarked) (scope : ScopeId)
    (before : Word) (d : Binding TypeExpr) :
    (enterLocal procedure scope (t, before) d).Meets True fun s _ => s.1.1.IsUnmarked := by
  unfold enterLocal
  refine (Visit.Meets.of_true _).andThen fun e ty _ => ?_
  have he : Meets True (fun s : SymbolTable × Word => s.1.IsUnmarked)
      ((liftM ty.byteSize : Verdict Word) >>= fun size =>
        enterNew t scope d.name (.var { type := ty, isReference := false }) d.position
          (.redeclaredAsVariable d.name) >>= fun t' =>
            addLocalSize procedure d.position before size >>= fun total => pure (t', total)) := by
    refine (Meets.of_true _).bind fun size _ => ?_
    refine (enterNew_unmarked h rfl scope d.name d.position _).bind fun t' ht' => ?_
    exact (Meets.of_true _).bind fun total _ => ht'
  dsimp only
  split
  · next s hx => exact he.of_ok hx
  · next e' hx => exact Spl.Meets.of_error ((congrArg (Spl.Meets True _) hx).mp he)

theorem enterType_unmarked (h : t.IsUnmarked) (d : Binding TypeExpr) :
    (enterType t d).Meets True fun _ t' => t'.IsUnmarked := by
  unfold enterType
  split
  · trivial
  · refine (Visit.Meets.of_true _).andThen fun e ty _ => ?_
    exact enterNew_unmarked h rfl global d.name d.position _

theorem enterProcedure_unmarked (h : t.IsUnmarked) (d : ProcDecl) :
    (enterProcedure t d).Meets True fun _ t' => t'.IsUnmarked := by
  unfold enterProcedure
  have hn := h.newScope global
  rcases hx : t.newScope global with ⟨scope, t₁⟩
  rw [hx] at hn
  dsimp only at hn ⊢
  refine Visit.Meets.andThen (Visit.Meets.thread (I := fun t' _ _ _ => t'.IsUnmarked)
    (fun b _ t' _ _ _ ht' => enterParameter_unmarked ht' scope b) hn) fun s vs hs => ?_
  refine Visit.Meets.andThen (Visit.Meets.thread (I := fun s _ _ _ => s.1.IsUnmarked)
    (fun b _ s _ _ _ hs => enterLocal_unmarked d.name hs scope s.2 b) hs) fun s _ hs => ?_
  exact enterNew_unmarked hs rfl global d.name d.position _

theorem enterDeclaration_unmarked (h : t.IsUnmarked) (d : Decl) :
    (enterDeclaration t d).Meets True fun s _ => s.1.IsUnmarked := by
  unfold enterDeclaration
  cases d with
  | type d => exact (Visit.Meets.mapTree (enterType_unmarked h d)).andThen fun _ _ ht' => ht'
  | procedure d =>
    exact (Visit.Meets.mapTree (enterProcedure_unmarked h d)).andThen fun _ _ ht' => ht'

mutual

theorem Stmt.check_unmarked : ∀ (s : Stmt) {t : SymbolTable} (scope : ScopeId), t.IsUnmarked →
    (s.check scope t).Meets True fun v _ => v.1.IsUnmarked
  | .assign p target value, t, scope, h => by
    unfold Stmt.check
    refine (Visit.Meets.of_true _).andThen fun target ty _ => ?_
    refine (Visit.Meets.of_true _).andThen fun value ty' _ => ?_
    exact Meets.mono (Meets.of_true _) fun _ _ => h
  | .ifElse p condition thenPart elsePart, t, scope, h => by
    unfold Stmt.check
    refine (Visit.Meets.of_true _).andThen fun condition ty _ => ?_
    cases checkCondition p .ifCondition ty with
    | error e => cases e <;> trivial
    | ok _ =>
      refine (Stmt.check_unmarked thenPart scope h).andThen fun v _ hv => ?_
      exact .mapTree (Stmt.check_unmarked elsePart scope hv)
  | .whileDo p condition body, t, scope, h => by
    unfold Stmt.check
    refine (Visit.Meets.of_true _).andThen fun condition ty _ => ?_
    cases checkCondition p .whileCondition ty with
    | error e => cases e <;> trivial
    | ok _ => exact .mapTree (Stmt.check_unmarked body scope h)
  | .call c, t, scope, h => by
    unfold Stmt.check
    exact .mapTree ((Visit.Meets.of_true _).mono fun _ _ _ => h)
  | .compound p statements, t, scope, h => by
    unfold Stmt.check
    exact .mapTree (Stmt.checkList_unmarked statements _ (h.newScope scope))
  | .empty p, t, scope, h => by
    unfold Stmt.check
    exact h

theorem Stmt.checkList_unmarked : ∀ (ss : List Stmt) {t : SymbolTable} (scope : ScopeId),
    t.IsUnmarked → (Stmt.checkList scope t ss).Meets True fun v _ => v.1.IsUnmarked
  | [], t, scope, h => by
    unfold Stmt.checkList
    exact h
  | s :: ss, t, scope, h => by
    unfold Stmt.checkList
    refine (Stmt.check_unmarked s scope h).andThen fun v _ hv => ?_
    exact .mapTree (Stmt.checkList_unmarked ss scope hv)

end

theorem Decl.checkBody_unmarked (h : t.IsUnmarked) (d : Decl) :
    (d.checkBody t).Meets True fun v _ => v.1.IsUnmarked := by
  unfold checkBody
  cases d with
  | type d => exact h
  | procedure d =>
    dsimp only
    cases t.procedure? d.name with
    | none => trivial
    | some P => exact .mapTree (Stmt.checkList_unmarked d.body P.localScope h)

theorem isUnmarked_predefined : predefined.IsUnmarked := by
  unfold IsUnmarked
  decide

/-- The table of an accepted program marks no frame. -/
theorem buildAndCheck_unmarked (o : Options) (p : Program) :
    (buildAndCheck o p).Meets True fun _ t => t.IsUnmarked := by
  unfold buildAndCheck enterDeclarations
  refine Visit.Meets.andThen (Q := fun _ t => t.IsUnmarked) ?_ fun p' t ht => ?_
  · refine Visit.Meets.andThen (Visit.Meets.thread (I := fun t _ _ _ => t.IsUnmarked)
      (fun d _ t _ _ _ ht => enterDeclaration_unmarked ht d) isUnmarked_predefined) fun s _ hs => ?_
    exact (Meets.of_true _).bind fun _ _ => hs
  · have hc : (checkBodies t p').Meets True fun v _ => v.1.IsUnmarked :=
      .map (.mapTree (Visit.Meets.thread (I := fun (t : SymbolTable) _ _ _ => t.IsUnmarked)
        (fun d _ t _ _ _ ht => Decl.checkBody_unmarked ht d) ht))
    exact Meets.map hc

end

end Spl
