import Spl.SymbolTable.Basic

/-!
# Facts about symbol tables

What each operation does to the two views of a table: the scopes that it has (`SymbolTable.scope`)
and the entries of a scope (`Scope.get?`).

* `Scope.get?_add`, `Scope.get?_update`: the entries of a changed scope.
* `SymbolTable.scope_newScope`, `SymbolTable.scope_modifyScope`: the scopes of a changed table.
* `SymbolTable.enter?_eq_none_iff`: what a table refuses.
* `SymbolTable.scope_update`: a change in place touches one entry of one scope.
-/

namespace Spl

namespace Scope

/-! ## Entries of a scope -/

theorem lookup_cons_eq_ite {α : Type} (name n : String) (a : α) (l : List (String × α)) :
    List.lookup name ((n, a) :: l) = if name = n then some a else l.lookup name := by
  by_cases h : name = n
  · simp [h]
  · have hn : (name == n) = false := by simpa using h
    simp [List.lookup_cons, h, hn]

theorem lookup_append_singleton {α : Type} (name n : String) (a : α) :
    ∀ l : List (String × α),
      (l ++ [(n, a)]).lookup name = (l.lookup name).or (if name = n then some a else none)
  | [] => by simp [lookup_cons_eq_ite]
  | (m, b) :: l => by
    rw [List.cons_append, lookup_cons_eq_ite, lookup_cons_eq_ite, lookup_append_singleton]
    split <;> rfl

/-- A name is found exactly if it is among the names. -/
theorem lookup_isSome_iff {α : Type} {name : String} {l : List (String × α)} :
    (l.lookup name).isSome = true ↔ name ∈ l.map Prod.fst := by
  induction l with
  | nil => simp
  | cons p l ih =>
    obtain ⟨n, a⟩ := p
    rw [lookup_cons_eq_ite, List.map_cons, List.mem_cons, ← ih]
    by_cases h : name = n <;> simp [h]

theorem get?_add (s : Scope) (name n : String) (e : Entry) :
    (s.add n e).get? name = (s.get? name).or (if name = n then some e else none) :=
  lookup_append_singleton name n e s.entries

/-- A new entry is found under its name. -/
theorem get?_add_self {s : Scope} {name : String} (h : s.declares name = false) (e : Entry) :
    (s.add name e).get? name = some e := by
  have hn : s.get? name = none := Option.not_isSome_iff_eq_none.1 (by simpa [declares] using h)
  simp [get?_add, hn]

/-- A new entry hides no other one. -/
theorem get?_add_of_some {s : Scope} {name : String} {e : Entry} (h : s.get? name = some e)
    (n : String) (e' : Entry) : (s.add n e').get? name = some e := by
  simp [get?_add, h]

theorem lookup_map_update (name n : String) (f : Entry → Entry) :
    ∀ l : List (String × Entry),
      (l.map fun p => if p.1 = n then (p.1, f p.2) else p).lookup name =
        if name = n then (l.lookup name).map f else l.lookup name
  | [] => by simp
  | (m, e) :: l => by
    have ih := lookup_map_update name n f l
    rw [List.map_cons, lookup_cons_eq_ite name m]
    by_cases hm : m = n
    · rw [if_pos hm, lookup_cons_eq_ite, ih, hm]
      split <;> rfl
    · rw [if_neg hm, lookup_cons_eq_ite, ih]
      by_cases h : name = m
      · rw [if_pos h, if_pos h, if_neg (h ▸ hm)]
      · rw [if_neg h, if_neg h]

theorem get?_update (s : Scope) (name n : String) (f : Entry → Entry) :
    (s.update n f).get? name = if name = n then (s.get? name).map f else s.get? name :=
  lookup_map_update name n f s.entries

/-- A change in place keeps the names of a scope and their order. -/
theorem map_fst_update (s : Scope) (n : String) (f : Entry → Entry) :
    (s.update n f).entries.map Prod.fst = s.entries.map Prod.fst := by
  simp only [update, List.map_map]
  refine List.map_congr_left fun p _ => ?_
  simp only [Function.comp_apply]
  split <;> rfl

@[simp]
theorem declares_update (s : Scope) (name n : String) (f : Entry → Entry) :
    (s.update n f).declares name = s.declares name := by
  simp only [declares, get?_update]
  split <;> simp

end Scope

namespace SymbolTable

/-! ## Scopes of a table -/

/-- A table has the scope of a number if it has given the number out. -/
def HasScope (t : SymbolTable) (id : ScopeId) : Prop := id.index < t.scopes.length

theorem scope_newScope {t : SymbolTable} {id : ScopeId} (h : t.HasScope id) (parent : ScopeId) :
    (t.newScope parent).2.scope id = t.scope id := by
  simp [scope, newScope, List.getElem?_append_left h]

/-- A new scope is empty and lies inside its parent. -/
theorem scope_newScope_self (t : SymbolTable) (parent : ScopeId) :
    (t.newScope parent).2.scope (t.newScope parent).1 =
      { enclosing := t.chain parent, entries := [] } := by
  simp [scope, newScope, chain]

theorem hasScope_newScope_iff {t : SymbolTable} {parent id : ScopeId} :
    (t.newScope parent).2.HasScope id ↔ t.HasScope id ∨ id = (t.newScope parent).1 := by
  obtain ⟨i⟩ := id
  simp only [HasScope, newScope, List.length_append, List.length_singleton, ScopeId.mk.injEq]
  omega

@[simp]
theorem hasScope_modifyScope_iff {t : SymbolTable} {id id' : ScopeId} {f : Scope → Scope} :
    (t.modifyScope id f).HasScope id' ↔ t.HasScope id' := by
  simp [HasScope, modifyScope]

theorem scope_modifyScope {t : SymbolTable} {id : ScopeId} (h : t.HasScope id)
    (f : Scope → Scope) (id' : ScopeId) :
    (t.modifyScope id f).scope id' = if id' = id then f (t.scope id') else t.scope id' := by
  obtain ⟨i⟩ := id
  obtain ⟨j⟩ := id'
  by_cases hij : j = i
  · subst hij
    have hj : j < t.scopes.length := h
    simp [scope, modifyScope, List.getElem?_eq_getElem hj]
  · have hij' : i ≠ j := fun e => hij e.symm
    simp [scope, modifyScope, hij, hij']

theorem scope_modifyScope_of_ne {t : SymbolTable} {id id' : ScopeId} (h : id' ≠ id)
    (f : Scope → Scope) : (t.modifyScope id f).scope id' = t.scope id' := by
  obtain ⟨i⟩ := id
  obtain ⟨j⟩ := id'
  have hij : i ≠ j := fun e => h (by rw [e])
  simp [scope, modifyScope, hij]

/-- A table refuses exactly the names that the scope itself declares. -/
theorem enter?_eq_none_iff {t : SymbolTable} {id : ScopeId} {name : String} {e : Entry} :
    t.enter? id name e = none ↔ (t.scope id).declares name = true := by
  unfold enter?
  split <;> simp_all

theorem enter?_eq_some_iff {t t' : SymbolTable} {id : ScopeId} {name : String} {e : Entry} :
    t.enter? id name e = some t' ↔
      (t.scope id).declares name = false ∧ t.modifyScope id (·.add name e) = t' := by
  unfold enter?
  split <;> simp_all

/-- An entry is found in the scope in which it was entered. -/
theorem get?_scope_of_enter? {t t' : SymbolTable} {id : ScopeId} {name : String} {e : Entry}
    (hs : t.HasScope id) (h : t.enter? id name e = some t') :
    (t'.scope id).get? name = some e := by
  obtain ⟨hd, rfl⟩ := enter?_eq_some_iff.1 h
  rw [scope_modifyScope hs, if_pos rfl, Scope.get?_add_self hd]

/-! ## Look-up -/

/-- A name denotes something exactly if some scope on the way out declares it. -/
theorem find?_isSome_iff {t : SymbolTable} {id : ScopeId} {name : String} :
    (t.find? id name).isSome = true ↔ ∃ s ∈ t.chain id, (t.scope s).declares name = true := by
  simp [find?, List.findSome?_isSome_iff, Scope.declares]

/-- The entry of a scope itself hides those further out. -/
theorem find?_of_get? {t : SymbolTable} {id : ScopeId} {name : String} {e : Entry}
    (h : (t.scope id).get? name = some e) : t.find? id name = some e := by
  rw [find?, chain, List.findSome?_cons, h]

theorem findSome?_get?_of_find? {t : SymbolTable} {s : ScopeId} {name : String} :
    ∀ {l : List ScopeId}, l.find? (fun s => (t.scope s).declares name) = some s →
      l.findSome? (fun s => (t.scope s).get? name) = (t.scope s).get? name
  | [], h => by cases h
  | a :: l, h => by
    rw [List.find?_cons] at h
    rw [List.findSome?_cons]
    cases hd : (t.scope a).get? name with
    | some e =>
      simp only [Scope.declares, hd, Option.isSome_some, Option.some.injEq] at h
      rw [← h, hd]
    | none =>
      simp only [Scope.declares, hd, Option.isSome_none] at h
      exact findSome?_get?_of_find? h

theorem find?_eq_get?_of_declaring? {t : SymbolTable} {id s : ScopeId} {name : String}
    (h : t.declaring? id name = some s) : t.find? id name = (t.scope s).get? name :=
  findSome?_get?_of_find? h

/-- The global scope has no scope around it in any table that begins with an empty one. -/
theorem find?_global {t : SymbolTable} (h : (t.scope global).enclosing = []) (name : String) :
    t.find? global name = (t.scope global).get? name := by
  simp only [find?, chain, h, List.findSome?_cons, List.findSome?_nil]
  cases (t.scope global).get? name <;> rfl

/-! ## Changes in place -/

/-- A change in place touches the scope in which the name is declared, and no other. -/
theorem scope_update (t : SymbolTable) (id : ScopeId) (name : String) (f : Entry → Entry)
    (id' : ScopeId) :
    (t.update id name f).scope id' =
      if t.declaring? id name = some id' then (t.scope id').update name f else t.scope id' := by
  unfold update
  cases hd : t.declaring? id name with
  | none => simp
  | some s =>
    by_cases h : s = id'
    · subst h
      have hs : t.HasScope s := by
        have := List.find?_some hd
        refine Nat.lt_of_not_le fun hle => ?_
        simp [scope, List.getElem?_eq_none hle, Scope.declares, Scope.get?] at this
      simp [scope_modifyScope hs]
    · have h' : id' ≠ s := fun e => h e.symm
      simp [scope_modifyScope_of_ne h', h]

end SymbolTable

end Spl
