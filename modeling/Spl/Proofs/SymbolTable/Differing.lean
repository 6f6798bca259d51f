import Spl.Proofs.Frame.Lockstep
import Spl.Proofs.SymbolTable.Laws
import Spl.Proofs.SymbolTable.Places

/-!
# Tables that differ in one scope

Two tables have the same scopes, but for one of them, whose two versions are in a relation `Q`. They
stay so while both tables are changed in the same way. Where the difference hides nothing from the
allocation, the two tables are allocated in step.

* `SymbolTable.DiffersAt s Q`: the relation.
* `DiffersAt.newScope`, `DiffersAt.modifyScope_of_ne`, `DiffersAt.modifyScope`: changes of both
  tables.
* `Scope.SparesProcedures`, `Scope.Matches`: what the difference must leave alone.
* `Parallel`, `Counterparts`: such tables, with what is known of their global scope and procedures.
* `Counterparts.related`, `Counterparts.sameName`: the tables are allocated in step.
-/

namespace Spl

/-! ## Scopes -/

namespace Scope

/-- The difference touches no procedure, and stays what it is when a procedure is changed in both
versions. -/
structure SparesProcedures (Q : Scope → Scope → Prop) : Prop where
  proc? : ∀ c c', Q c c' → ∀ n, (c'.get? n).bind Entry.proc? = (c.get? n).bind Entry.proc?
  mapProcedure : ∀ c c', Q c c' → ∀ n f,
    Q (c.update n (·.mapProcedure f)) (c'.update n (·.mapProcedure f))

/-- The name `n'` stands in the second version for the variable `n` of the first one, and still does
when the variable is changed in both. -/
structure Matches (Q : Scope → Scope → Prop) (n n' : String) : Prop where
  var? : ∀ c c', Q c c' → (c'.get? n').bind Entry.var? = (c.get? n).bind Entry.var?
  mapVariable : ∀ c c', Q c c' → ∀ f,
    Q (c.update n (·.mapVariable f)) (c'.update n' (·.mapVariable f))

/-- Changing a name that is not declared changes nothing. -/
theorem update_of_not_declares {c : Scope} {n : String} (h : c.declares n = false)
    (f : Entry → Entry) : c.update n f = c := by
  have hp : ∀ p ∈ c.entries, (if p.1 = n then (p.1, f p.2) else p) = p := fun p hp => by
    refine if_neg fun hn => ?_
    have hmem : n ∈ c.names := hn ▸ List.mem_map_of_mem hp
    rw [← declares_iff_mem_names, h] at hmem
    cases hmem
  rw [update, List.map_congr_left hp, List.map_id']

end Scope

namespace SymbolTable

variable {s : ScopeId} {Q : Scope → Scope → Prop} {t t' u : SymbolTable} {id : ScopeId}

/-! ## Scopes of a changed table -/

/-- A scope that the table does not have cannot be changed. -/
theorem modifyScope_eq_self_of_not_hasScope (h : ¬t.HasScope id) (f : Scope → Scope) :
    t.modifyScope id f = t := by
  rw [modifyScope, List.modify_eq_self (Nat.le_of_not_lt h)]

theorem scope_modifyScope_eq_ite (t : SymbolTable) (id : ScopeId) (f : Scope → Scope)
    (id' : ScopeId) : (t.modifyScope id f).scope id' =
      if id' = id ∧ t.HasScope id then f (t.scope id') else t.scope id' := by
  by_cases hs : t.HasScope id
  · rw [scope_modifyScope hs]
    simp only [hs, and_true]
  · rw [if_neg fun h => hs h.2]
    by_cases hid : id' = id
    · rw [modifyScope_eq_self_of_not_hasScope hs]
    · rw [scope_modifyScope_of_ne hid]

theorem scope_append (t : SymbolTable) (added : List Scope) (id : ScopeId) :
    scope ⟨t.scopes ++ added⟩ id =
      if t.HasScope id then t.scope id else added[id.index - t.scopes.length]?.getD {} := by
  unfold scope
  split
  · next h => rw [List.getElem?_append_left h]
  · next h => rw [List.getElem?_append_right (Nat.le_of_not_lt h)]

/-- Where nothing lies around the global scope, changing a procedure is changing that scope. -/
theorem updateProcedure_eq_modifyScope (h : (t.scope global).enclosing = []) (n : String)
    (f : Procedure → Procedure) :
    t.updateProcedure n f = t.modifyScope global (·.update n (·.mapProcedure f)) := by
  unfold updateProcedure update declaring?
  rw [chain, h, List.find?_cons, List.find?_nil]
  cases hd : (t.scope global).declares n with
  | true => rfl
  | false => exact (modifyScope_eq_self (Scope.update_of_not_declares hd _)).symm

/-! ## The relation -/

/-- The second table has the scopes of the first one, but for the scope `s`, whose versions are
related by `Q`. -/
structure DiffersAt (s : ScopeId) (Q : Scope → Scope → Prop) (t t' : SymbolTable) : Prop where
  length_eq : t'.scopes.length = t.scopes.length
  hasScope : t.HasScope s
  others : ∀ id, id ≠ s → t'.scope id = t.scope id
  enclosing : (t'.scope s).enclosing = (t.scope s).enclosing
  versions : Q (t.scope s) (t'.scope s)

namespace DiffersAt

theorem hasScope_iff (h : DiffersAt s Q t t') : t'.HasScope id ↔ t.HasScope id := by
  rw [HasScope, HasScope, h.length_eq]

theorem enclosing_eq (h : DiffersAt s Q t t') (id : ScopeId) :
    (t'.scope id).enclosing = (t.scope id).enclosing := by
  by_cases hid : id = s
  · rw [hid]
    exact h.enclosing
  · rw [h.others id hid]

theorem chain_eq (h : DiffersAt s Q t t') (id : ScopeId) : t'.chain id = t.chain id := by
  rw [chain, chain, h.enclosing_eq]

theorem closed (h : DiffersAt s Q t t') (hc : t.Closed id) : t'.Closed id := by
  intro s hs
  rw [h.chain_eq] at hs
  exact h.hasScope_iff.2 (hc s hs)

/-- Both tables get the same scopes. -/
theorem append (h : DiffersAt s Q t t') (added : List Scope) :
    DiffersAt s Q ⟨t.scopes ++ added⟩ ⟨t'.scopes ++ added⟩ := by
  have hs := h.hasScope
  have hs' : t'.HasScope s := h.hasScope_iff.2 hs
  refine ⟨?_, ?_, fun id hid => ?_, ?_, ?_⟩
  · rw [List.length_append, List.length_append, h.length_eq]
  · rw [HasScope, List.length_append]
    exact Nat.lt_add_right _ hs
  · rw [scope_append, scope_append, h.length_eq, h.others id hid]
    simp only [h.hasScope_iff]
  · rw [scope_append, scope_append, if_pos hs, if_pos hs']
    exact h.enclosing
  · rw [scope_append, scope_append, if_pos hs, if_pos hs']
    exact h.versions

/-- Both tables get a scope inside the same one. It has the same number. -/
theorem newScope (h : DiffersAt s Q t t') (parent : ScopeId) :
    (t'.newScope parent).1 = (t.newScope parent).1 ∧
      DiffersAt s Q (t.newScope parent).2 (t'.newScope parent).2 := by
  refine ⟨congrArg ScopeId.mk h.length_eq, ?_⟩
  rw [SymbolTable.newScope, SymbolTable.newScope, h.enclosing_eq]
  exact h.append _

/-- Another scope is changed in both tables. -/
theorem modifyScope_of_ne (h : DiffersAt s Q t t') (hid : id ≠ s) (f : Scope → Scope) :
    DiffersAt s Q (t.modifyScope id f) (t'.modifyScope id f) := by
  refine ⟨?_, hasScope_modifyScope_iff.2 h.hasScope, fun id' hid' => ?_, ?_, ?_⟩
  · rw [SymbolTable.modifyScope, SymbolTable.modifyScope, List.length_modify, List.length_modify,
      h.length_eq]
  · rw [scope_modifyScope_eq_ite, scope_modifyScope_eq_ite, h.others id' hid']
    simp only [h.hasScope_iff]
  · rw [scope_modifyScope_of_ne hid.symm, scope_modifyScope_of_ne hid.symm]
    exact h.enclosing
  · rw [scope_modifyScope_of_ne hid.symm, scope_modifyScope_of_ne hid.symm]
    exact h.versions

/-- The scope itself is changed in both tables. -/
theorem modifyScope (h : DiffersAt s Q t t') {f f' : Scope → Scope}
    (he : ∀ c, (f c).enclosing = c.enclosing) (he' : ∀ c, (f' c).enclosing = c.enclosing)
    (hQ : Q (f (t.scope s)) (f' (t'.scope s))) :
    DiffersAt s Q (t.modifyScope s f) (t'.modifyScope s f') := by
  have hs := h.hasScope
  have hs' : t'.HasScope s := h.hasScope_iff.2 hs
  refine ⟨?_, hasScope_modifyScope_iff.2 hs, fun id hid => ?_, ?_, ?_⟩
  · rw [SymbolTable.modifyScope, SymbolTable.modifyScope, List.length_modify, List.length_modify,
      h.length_eq]
  · rw [scope_modifyScope_of_ne hid, scope_modifyScope_of_ne hid]
    exact h.others id hid
  · rw [scope_modifyScope hs, scope_modifyScope hs', if_pos rfl, if_pos rfl, he, he']
    exact h.enclosing
  · rw [scope_modifyScope hs, scope_modifyScope hs', if_pos rfl, if_pos rfl]
    exact hQ

/-- A name is entered into another scope of both tables. -/
theorem enter?_of_ne (h : DiffersAt s Q t t') (hid : id ≠ s) {n : String} {e : Entry}
    (hu : t.enter? id n e = some u) : ∃ u', t'.enter? id n e = some u' ∧ DiffersAt s Q u u' := by
  obtain ⟨hd, rfl⟩ := enter?_eq_some_iff.1 hu
  rw [← h.others id hid] at hd
  exact ⟨_, enter?_eq_some_iff.2 ⟨hd, rfl⟩, h.modifyScope_of_ne hid _⟩

/-- Names are entered into the scope itself. -/
theorem enter? (h : DiffersAt s Q t t') {n n' : String} {e : Entry}
    (hd' : (t'.scope s).declares n' = false)
    (hQ : Q ((t.scope s).add n e) ((t'.scope s).add n' e)) (hu : t.enter? s n e = some u) :
    ∃ u', t'.enter? s n' e = some u' ∧ DiffersAt s Q u u' := by
  obtain ⟨-, rfl⟩ := enter?_eq_some_iff.1 hu
  exact ⟨_, enter?_eq_some_iff.2 ⟨hd', rfl⟩, h.modifyScope (fun _ => rfl) (fun _ => rfl) hQ⟩

/-- Where the difference touches no procedure, both tables have the same ones. -/
theorem procedure?_eq (h : DiffersAt s Q t t') (hQ : Scope.SparesProcedures Q) (n : String) :
    t'.procedure? n = t.procedure? n := by
  by_cases hs : global = s
  · subst hs
    exact hQ.proc? _ _ h.versions n
  · rw [procedure?, procedure?, h.others global hs]

end DiffersAt

/-! ## Tables with a global scope -/

/-- The tables differ at `s`, and nothing lies around their global scope. -/
structure Parallel (s : ScopeId) (Q : Scope → Scope → Prop) (t t' : SymbolTable) : Prop where
  differs : DiffersAt s Q t t'
  hasScope : t.HasScope global
  enclosing : (t.scope global).enclosing = []

/-- Entering a name changes no surroundings. -/
theorem enclosing_enter? {n : String} {e : Entry} (hu : t.enter? id n e = some u) (id' : ScopeId) :
    (u.scope id').enclosing = (t.scope id').enclosing := by
  obtain ⟨-, rfl⟩ := enter?_eq_some_iff.1 hu
  rw [scope_modifyScope_eq_ite]
  split <;> rfl

theorem hasScope_enter?_iff {n : String} {e : Entry} (hu : t.enter? id n e = some u)
    {id' : ScopeId} : u.HasScope id' ↔ t.HasScope id' := by
  obtain ⟨-, rfl⟩ := enter?_eq_some_iff.1 hu
  exact hasScope_modifyScope_iff

namespace Parallel

/-- A name has been entered into the first table, and something into the second one. -/
theorem of_enter? (h : Parallel s Q t t') {n : String} {e : Entry} {u' : SymbolTable}
    (hu : t.enter? id n e = some u) (hd : DiffersAt s Q u u') : Parallel s Q u u' :=
  ⟨hd, (hasScope_enter?_iff hu).2 h.hasScope, (enclosing_enter? hu global).trans h.enclosing⟩

/-- Both tables get a local scope. -/
theorem newScope (h : Parallel s Q t t') :
    Parallel s Q (t.newScope global).2 (t'.newScope global).2 :=
  ⟨(h.differs.newScope global).2, hasScope_newScope_iff.2 (.inl h.hasScope),
    (scope_newScope h.hasScope global).symm ▸ h.enclosing⟩

end Parallel

/-! ## Allocation in step -/

/-- The tables are parallel, and the local scopes of their procedures are given by `scopeOf`. -/
structure Counterparts (s : ScopeId) (Q : Scope → Scope → Prop)
    (scopeOf : String → Option ScopeId) (t t' : SymbolTable) : Prop extends Parallel s Q t t' where
  scopeOf_eq : ∀ n, (t.procedure? n).map (·.localScope) = scopeOf n

theorem localScope_mapVariable (f : Variable → Variable) (e : Entry) :
    ((e.mapVariable f).proc?).map (·.localScope) = e.proc?.map (·.localScope) := by
  cases e <;> rfl

/-- A change in place that keeps the local scopes of procedures. -/
theorem localScope_modifyScope (id : ScopeId) (n : String) {f : Entry → Entry}
    (hf : ∀ e, ((f e).proc?).map (·.localScope) = e.proc?.map (·.localScope)) (m : String) :
    ((t.modifyScope id (·.update n f)).procedure? m).map (·.localScope) =
      (t.procedure? m).map (·.localScope) := by
  rw [procedure?, procedure?, scope_modifyScope_eq_ite]
  split
  · rw [Scope.get?_update]
    split
    · cases (t.scope global).get? m with
      | none => rfl
      | some e => exact hf e
    · rfl
  · rfl

namespace Counterparts

variable {scopeOf : String → Option ScopeId}

/-- An entry is changed in place in both tables. -/
theorem modifyScope (h : Counterparts s Q scopeOf t t') {f : Entry → Entry} {n n' : String}
    (hf : ∀ e, ((f e).proc?).map (·.localScope) = e.proc?.map (·.localScope))
    (hn : id ≠ s → n' = n)
    (hQ : id = s → Q ((t.scope s).update n f) ((t'.scope s).update n' f)) :
    Counterparts s Q scopeOf (t.modifyScope id (·.update n f))
      (t'.modifyScope id (·.update n' f)) := by
  refine ⟨⟨?_, hasScope_modifyScope_iff.2 h.hasScope, ?_⟩, fun m => ?_⟩
  · by_cases hid : id = s
    · subst hid
      exact h.differs.modifyScope (fun _ => rfl) (fun _ => rfl) (hQ rfl)
    · rw [hn hid]
      exact h.differs.modifyScope_of_ne hid _
  · rw [scope_modifyScope_eq_ite]
    split
    · exact h.enclosing
    · exact h.enclosing
  · rw [localScope_modifyScope id n hf]
    exact h.scopeOf_eq m

theorem related (hQ : Scope.SparesProcedures Q) : Related (Counterparts s Q scopeOf) where
  procedure_eq _ _ h := h.differs.procedure?_eq hQ
  updateProcedure t t' h n f hf := by
    rw [updateProcedure_eq_modifyScope h.enclosing,
      updateProcedure_eq_modifyScope (h.differs.enclosing_eq global ▸ h.enclosing)]
    refine h.modifyScope (fun e => ?_) (fun _ => rfl) fun _ =>
      hQ.mapProcedure _ _ h.differs.versions n f
    cases e with
    | proc P => exact congrArg some (hf P)
    | type _ => rfl
    | var _ => rfl

/-- In another scope, a name stands for itself. -/
theorem sameName_of_ne (hid : id ≠ s) (n : String) :
    SameName (Counterparts s Q scopeOf) id n n where
  local_eq _ _ h := by rw [local?, local?, h.differs.others id hid]
  updateLocal _ _ h _ :=
    h.modifyScope (localScope_mapVariable _) (fun _ => rfl) fun hs => absurd hs hid

/-- In the scope itself, a name stands for the one that matches it. -/
theorem sameName {n n' : String} (hQ : Scope.Matches Q n n') :
    SameName (Counterparts s Q scopeOf) s n n' where
  local_eq _ _ h := hQ.var? _ _ h.differs.versions
  updateLocal _ _ h _ := h.modifyScope (localScope_mapVariable _) (fun hs => absurd rfl hs)
    fun _ => hQ.mapVariable _ _ h.differs.versions _

/-- Both tables get the same empty scopes. -/
theorem append (h : Counterparts s Q scopeOf t t') (added : List Scope) :
    Counterparts s Q scopeOf ⟨t.scopes ++ added⟩ ⟨t'.scopes ++ added⟩ := by
  refine ⟨⟨h.differs.append added, ?_, ?_⟩, fun n => ?_⟩
  · rw [HasScope, List.length_append]
    exact Nat.lt_add_right _ h.hasScope
  · rw [scope_append, if_pos h.hasScope]
    exact h.enclosing
  · rw [← h.scopeOf_eq n, procedure?, procedure?, scope_append, if_pos h.hasScope]

end Counterparts

end SymbolTable

end Spl
