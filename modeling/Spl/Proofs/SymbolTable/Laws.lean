import Mathlib.Data.List.Nodup
import Mathlib.Logic.Relation
import Spl.Proofs.SymbolTable.Places
import Spl.Typing.Declarations

/-!
# Laws of symbol tables

A table comes from an empty or a predefined one by a run of operations: scopes are opened, names are
entered, and entries are changed in place. Its scopes are then nested, which makes the way out from
a scope end, and each operation can be said by what it does to the meaning of names.

* `SymbolTable.Operation`, `SymbolTable.Evolves`: the operations, and runs of them.
* `SymbolTable.Outward`, `SymbolTable.Nearest`: the way out from a scope, and the scope on it that
  gives a name its meaning.
* `SymbolTable.Nested`: the invariant of runs (`Nested.perform`, `Nested.evolves`).
* `SymbolTable.Puts`: one entry is written and all else stays; `Nested.find?_puts` says what that
  does to the meaning of names.
* `SymbolTable.laws_of_evolves`: every table obeys the laws of nested scopes.
-/

namespace Spl

namespace Scope

/-- The names that a scope declares, in the order of their entry. -/
def names (s : Scope) : List String := s.entries.map Prod.fst

variable {s : Scope} {name : String} {e : Entry} {f : Entry → Entry}

theorem declares_iff_mem_names : s.declares name = true ↔ name ∈ s.names := lookup_isSome_iff

/-- Names that are distinct are found. -/
theorem get?_of_mem (hn : s.names.Nodup) (h : (name, e) ∈ s.entries) : s.get? name = some e := by
  obtain ⟨_, l⟩ := s
  simp only [names] at hn
  simp only [get?]
  induction l with
  | nil => cases h
  | cons p l ih =>
    obtain ⟨n, e'⟩ := p
    rw [List.map_cons, List.nodup_cons] at hn
    rw [lookup_cons_eq_ite]
    rcases List.mem_cons.1 h with heq | hmem
    · cases heq
      rw [if_pos rfl]
    · have hne : name ≠ n := fun hc => hn.1 (List.mem_map.2 ⟨_, hmem, hc⟩)
      rw [if_neg hne, ih hn.2 hmem]

theorem names_add (s : Scope) (name : String) (e : Entry) :
    (s.add name e).names = s.names ++ [name] := by
  simp [names, add]

theorem nodup_add (hn : s.names.Nodup) (h : s.declares name = false) (e : Entry) :
    (s.add name e).names.Nodup := by
  have hmem : name ∉ s.names := fun hc => by
    rw [declares_iff_mem_names.2 hc] at h
    cases h
  rw [names_add, ← List.concat_eq_append]
  exact List.Nodup.concat hmem hn

/-- A change that leaves the entry of a name as it is leaves the scope as it is. -/
theorem update_eq_self (hn : s.names.Nodup) (h : ∀ e, s.get? name = some e → f e = e) :
    s.update name f = s := by
  have hp : ∀ p ∈ s.entries, (if p.1 = name then (p.1, f p.2) else p) = p := by
    rintro ⟨n, e⟩ hmem
    by_cases hc : n = name
    · subst hc
      rw [if_pos rfl, h e (get?_of_mem hn hmem)]
    · exact if_neg hc
  rw [update, List.map_congr_left hp, List.map_id']

end Scope

namespace SymbolTable

/-! ## Operations -/

/-- An operation on a table. A change in place may be any change of what the look-up gives. -/
inductive Operation where
  | newScope (parent : ScopeId)
  | enter (scope : ScopeId) (name : String) (entry : Entry)
  | edit (scope : ScopeId) (name : String) (f : Entry → Entry)
  | editProcedure (name : String) (f : Procedure → Procedure)
  | editLocal (scope : ScopeId) (name : String) (f : Variable → Variable)

namespace Operation

/-- An operation works on a scope that the table has. -/
def Admissible (t : SymbolTable) : Operation → Prop
  | newScope s | enter s _ _ | edit s _ _ | editLocal s _ _ => t.HasScope s
  | editProcedure _ _ => True

end Operation

/-- The table after an operation. A name that cannot be entered leaves the table as it is. -/
def perform (t : SymbolTable) : Operation → SymbolTable
  | .newScope parent => (t.newScope parent).2
  | .enter s name e => (t.enter? s name e).getD t
  | .edit s name f => t.update s name f
  | .editProcedure name f => t.updateProcedure name f
  | .editLocal s name f => t.updateLocal s name f

/-- One operation leads from the first table to the second. -/
def Step (t t' : SymbolTable) : Prop :=
  ∃ o : Operation, o.Admissible t ∧ t.perform o = t'

/-- A run of operations leads from the first table to the second. -/
def Evolves : SymbolTable → SymbolTable → Prop := Relation.ReflTransGen Step

/-! ## The way out -/

/-- A walk from scope to parent leads from the first scope to the second. -/
def Outward (t : SymbolTable) : ScopeId → ScopeId → Prop :=
  Relation.ReflTransGen fun s p => (t.scope s).parent? = some p

/-- The walk outward from `s` passes only scopes that do not declare the name, and ends at `r`,
which does. -/
inductive Nearest (t : SymbolTable) (name : String) : ScopeId → ScopeId → Prop where
  | here {r : ScopeId} (declares : (t.scope r).declares name = true) : Nearest t name r r
  | outward {s p r : ScopeId} (passed : (t.scope s).declares name = false)
      (parent : (t.scope s).parent? = some p) (rest : Nearest t name p r) : Nearest t name s r

/-- Scopes are nested: the global scope is outermost, any other one lies in an older one, and no
scope declares a name twice. -/
structure Nested (t : SymbolTable) : Prop where
  hasGlobal : t.HasScope global
  outermost : (t.scope global).enclosing = []
  inside : ∀ s, t.HasScope s → s ≠ global →
    ∃ p, p.index < s.index ∧ (t.scope s).enclosing = t.chain p
  nodup : ∀ s, (t.scope s).names.Nodup

variable {t t' : SymbolTable} {s r p : ScopeId} {name n : String} {e : Entry}

instance : Decidable (t.HasScope s) := inferInstanceAs (Decidable (_ < _))

theorem hasScope_of_declares (h : (t.scope s).declares name = true) : t.HasScope s := by
  refine Nat.lt_of_not_le fun hle => ?_
  simp [scope, List.getElem?_eq_none hle, Scope.declares, Scope.get?] at h

theorem get?_eq_none_iff :
    (t.scope s).get? name = none ↔ (t.scope s).declares name = false := by
  simp [Scope.declares]

namespace Nearest

theorem declares (h : t.Nearest name s r) : (t.scope r).declares name = true := by
  induction h with
  | here hd => exact hd
  | outward _ _ _ ih => exact ih

theorem outwards (h : t.Nearest name s r) : t.Outward s r := by
  induction h with
  | here _ => exact .refl
  | outward _ hp _ ih => exact .head hp ih

/-- If some scope on the way out declares the name, one is nearest. -/
theorem exists_of_outward (h : t.Outward s r) (hd : (t.scope r).declares name = true) :
    ∃ q, t.Nearest name s q := by
  induction h using Relation.ReflTransGen.head_induction_on with
  | refl => exact ⟨r, .here hd⟩
  | @head s p hp _ ih =>
    obtain ⟨q, hq⟩ := ih
    cases hs : (t.scope s).declares name with
    | true => exact ⟨s, .here hs⟩
    | false => exact ⟨q, .outward hs hp hq⟩

end Nearest

/-! ## Look-up in nested scopes -/

/-- What a scope does not declare is looked up around it. -/
theorem find?_of_parent (hd : (t.scope s).get? name = none)
    (hchain : t.chain s = s :: t.chain p) : t.find? s name = t.find? p name := by
  rw [find?, hchain, List.findSome?_cons, hd, find?]

namespace Nested

theorem parent?_global (h : t.Nested) : (t.scope global).parent? = none := by
  rw [Scope.parent?, h.outermost]
  rfl

theorem exists_parent (h : t.Nested) (hs : t.HasScope s) (hne : s ≠ global) :
    ∃ p, (t.scope s).parent? = some p := by
  obtain ⟨p, -, henc⟩ := h.inside s hs hne
  exact ⟨p, by rw [Scope.parent?, henc]; rfl⟩

/-- A parent is older than the scope and begins the rest of its way out. -/
theorem parent (h : t.Nested) (hs : t.HasScope s) (hp : (t.scope s).parent? = some p) :
    p.index < s.index ∧ t.HasScope p ∧ t.chain s = s :: t.chain p := by
  have hne : s ≠ global := fun hc => by
    rw [hc, h.parent?_global] at hp
    cases hp
  obtain ⟨q, hlt, henc⟩ := h.inside s hs hne
  have hq : q = p := by
    rw [Scope.parent?, henc] at hp
    exact Option.some.inj hp
  subst hq
  have hs' : s.index < t.scopes.length := hs
  exact ⟨hlt, Nat.lt_trans hlt hs', by rw [chain, henc]⟩

/-- Induction along the way out: parents are older, so the way ends at the global scope. -/
theorem walk {motive : ScopeId → Prop} (h : t.Nested) (outermost : motive global)
    (inside : ∀ s p, (t.scope s).parent? = some p → t.chain s = s :: t.chain p → motive p →
      motive s) (s : ScopeId) (hs : t.HasScope s) : motive s := by
  induction hi : s.index using Nat.strongRecOn generalizing s with
  | ind i ih =>
    by_cases hg : s = global
    · exact hg ▸ outermost
    · obtain ⟨p, hp⟩ := h.exists_parent hs hg
      obtain ⟨hlt, hps, hchain⟩ := h.parent hs hp
      exact inside s p hp hchain (ih p.index (hi ▸ hlt) p hps rfl)

theorem outward_global (h : t.Nested) (hs : t.HasScope s) : t.Outward s global :=
  h.walk (motive := fun s => t.Outward s global) .refl (fun _ _ hp _ ih => .head hp ih) s hs

theorem find?_global (h : t.Nested) (name : String) :
    t.find? global name = (t.scope global).get? name :=
  SymbolTable.find?_global h.outermost name

/-- A name means what the nearest scope declares. -/
theorem find?_of_nearest (h : t.Nested) (hs : t.HasScope s) (hr : t.Nearest name s r) :
    t.find? s name = (t.scope r).get? name := by
  induction hr with
  | @here r hd =>
    obtain ⟨e, he⟩ := Option.isSome_iff_exists.1 hd
    rw [he, find?_of_get? he]
  | @outward s p r hd hp _ ih =>
    obtain ⟨-, hps, hchain⟩ := h.parent hs hp
    rw [find?_of_parent (get?_eq_none_iff.2 hd) hchain, ih hps]

/-- A name that means something is declared by a nearest scope. -/
theorem exists_nearest (h : t.Nested) (hs : t.HasScope s) (he : t.find? s name = some e) :
    ∃ r, t.Nearest name s r := by
  refine h.walk (motive := fun s => t.find? s name = some e → ∃ r, t.Nearest name s r)
    (fun he => ?_) (fun s p hp hchain ih he => ?_) s hs he
  · rw [h.find?_global] at he
    exact ⟨global, .here (by rw [Scope.declares, he]; rfl)⟩
  · cases hd : (t.scope s).declares name with
    | true => exact ⟨s, .here hd⟩
    | false =>
      rw [find?_of_parent (get?_eq_none_iff.2 hd) hchain] at he
      obtain ⟨r, hr⟩ := ih he
      exact ⟨r, .outward hd hp hr⟩

theorem find?_eq_some_iff (h : t.Nested) (hs : t.HasScope s) :
    t.find? s name = some e ↔ ∃ r, t.Nearest name s r ∧ (t.scope r).get? name = some e := by
  constructor
  · intro he
    obtain ⟨r, hr⟩ := h.exists_nearest hs he
    exact ⟨r, hr, by rw [← h.find?_of_nearest hs hr, he]⟩
  · rintro ⟨r, hr, he⟩
    rw [h.find?_of_nearest hs hr, he]

theorem find?_eq_none_iff (h : t.Nested) (hs : t.HasScope s) :
    t.find? s name = none ↔ ∀ r, t.Outward s r → (t.scope r).declares name = false := by
  constructor
  · intro hf r hr
    refine Bool.eq_false_iff.2 fun hd => ?_
    obtain ⟨q, hq⟩ := Nearest.exists_of_outward hr hd
    rw [h.find?_of_nearest hs hq, get?_eq_none_iff, hq.declares] at hf
    cases hf
  · intro hf
    refine Option.eq_none_iff_forall_ne_some.2 fun e he => ?_
    obtain ⟨r, hr⟩ := h.exists_nearest hs he
    have hd := hf r hr.outwards
    rw [hr.declares] at hd
    cases hd

/-- The search for the scope of a change finds the nearest one. -/
theorem declaring?_of_nearest (h : t.Nested) (hs : t.HasScope s) (hr : t.Nearest name s r) :
    t.declaring? s name = some r := by
  induction hr with
  | here hd => rw [declaring?, chain, List.find?_cons, hd]
  | @outward s p r hd hp _ ih =>
    obtain ⟨-, hps, hchain⟩ := h.parent hs hp
    rw [declaring?, hchain, List.find?_cons, hd]
    exact ih hps

end Nested

/-! ## One entry is written -/

/-- The second table has the entry `e` for the name `n` in the scope `r`. All other entries, and the
scopes, are those of the first one. -/
structure Puts (t : SymbolTable) (r : ScopeId) (n : String) (e : Entry) (t' : SymbolTable) :
    Prop where
  hasScope : ∀ s, t'.HasScope s ↔ t.HasScope s
  enclosing : ∀ s, (t'.scope s).enclosing = (t.scope s).enclosing
  put : (t'.scope r).get? n = some e
  others : ∀ s m, ¬(s = r ∧ m = n) → (t'.scope s).get? m = (t.scope s).get? m

/-- The name `n` gets the meaning `e` where `r` is the nearest scope that declares it. All other
meanings stay. -/
structure Redefines (t : SymbolTable) (r : ScopeId) (n : String) (e : Entry) (t' : SymbolTable) :
    Prop where
  new : ∀ s, t.HasScope s → t'.Nearest n s r → t'.find? s n = some e
  old : ∀ s m, t.HasScope s → ¬(m = n ∧ t'.Nearest n s r) → t'.find? s m = t.find? s m

theorem Puts.chain_eq (h : t.Puts r n e t') (s : ScopeId) : t'.chain s = t.chain s := by
  rw [chain, h.enclosing, chain]

/-- Writing one entry changes meanings only where that entry is the nearest one. -/
theorem Nested.redefines (h : t.Nested) (h' : t'.Nested) (hP : t.Puts r n e t') :
    t.Redefines r n e t' where
  new s hs hr := by rw [h'.find?_of_nearest ((hP.hasScope s).2 hs) hr, hP.put]
  old s m hs := by
    refine h.walk (motive := fun s => ¬(m = n ∧ t'.Nearest n s r) → t'.find? s m = t.find? s m)
      (fun hn => ?_) (fun s p hp hchain ih hn => ?_) s hs
    · rw [h.find?_global, h'.find?_global]
      refine hP.others _ _ fun hc => hn ⟨hc.2, ?_⟩
      rw [← hc.1]
      exact .here (by rw [Scope.declares, hc.1, hP.put]; rfl)
    · have hsame : (t'.scope s).get? m = (t.scope s).get? m := by
        refine hP.others _ _ fun hc => hn ⟨hc.2, ?_⟩
        rw [hc.1]
        exact .here (by rw [Scope.declares, hP.put]; rfl)
      cases hg : (t.scope s).get? m with
      | some e' => rw [find?_of_get? hg, find?_of_get? (hsame.trans hg)]
      | none =>
        have hchain' : t'.chain s = s :: t'.chain p := by
          rw [hP.chain_eq, hP.chain_eq, hchain]
        rw [find?_of_parent hg hchain, find?_of_parent (hsame.trans hg) hchain']
        refine ih fun hc => hn ⟨hc.1, ?_⟩
        have hp' : (t'.scope s).parent? = some p := by
          rw [Scope.parent?, hP.enclosing]
          exact hp
        exact .outward (get?_eq_none_iff.1 (hc.1 ▸ hsame.trans hg)) hp' hc.2

/-- Entering a new name writes its entry. -/
theorem puts_add (hs : t.HasScope s) (hd : (t.scope s).declares name = false) (e : Entry) :
    t.Puts s name e (t.modifyScope s (·.add name e)) where
  hasScope _ := hasScope_modifyScope_iff
  enclosing q := by
    rw [scope_modifyScope hs]
    split <;> rfl
  put := by rw [scope_modifyScope hs, if_pos rfl, Scope.get?_add_self hd]
  others q m hn := by
    rw [scope_modifyScope hs]
    split
    · next hq =>
      have hm : m ≠ name := fun hc => hn ⟨hq, hc⟩
      rw [Scope.get?_add, if_neg hm, Option.or_none]
    · rfl

/-- Changing the entry of a declared name writes what the change makes of it. -/
theorem puts_modifyScope (he : (t.scope s).get? name = some e) (f : Entry → Entry) :
    t.Puts s name (f e) (t.modifyScope s (·.update name f)) := by
  have hs : t.HasScope s := hasScope_of_declares (by rw [Scope.declares, he]; rfl)
  exact
    { hasScope := fun _ => hasScope_modifyScope_iff
      enclosing := fun q => by
        rw [scope_modifyScope hs]
        split <;> rfl
      put := by rw [get?_modifyScope_update hs, if_pos ⟨rfl, rfl⟩, he]; rfl
      others := fun q m hn => by rw [get?_modifyScope_update hs, if_neg hn] }

/-! ## Runs -/

/-- What an operation can do: open a scope, nothing, enter a new name, or change an entry. -/
theorem perform_cases {o : Operation} (ho : o.Admissible t) :
    (∃ p, t.HasScope p ∧ t.perform o = (t.newScope p).2) ∨
    t.perform o = t ∨
    (∃ s name e, t.HasScope s ∧ (t.scope s).declares name = false ∧
      t.perform o = t.modifyScope s (·.add name e)) ∨
    (∃ s name f, t.HasScope s ∧ t.perform o = t.modifyScope s (·.update name f)) := by
  have hupdate : ∀ s name f, t.update s name f = t ∨ ∃ r, t.HasScope r ∧
      t.update s name f = t.modifyScope r (·.update name f) := fun s name f => by
    unfold update
    cases hr : t.declaring? s name with
    | none => exact .inl rfl
    | some r =>
      have hd : (t.scope r).declares name = true := by
        have h := List.find?_some hr
        exact h
      exact .inr ⟨r, hasScope_of_declares hd, rfl⟩
  cases o with
  | newScope p => exact .inl ⟨p, ho, rfl⟩
  | enter s name e =>
    cases hd : (t.scope s).declares name with
    | true => exact .inr (.inl (by rw [perform, enter?_eq_none_iff.2 hd, Option.getD_none]))
    | false =>
      refine .inr (.inr (.inl ⟨s, name, e, ho, hd, ?_⟩))
      rw [perform, enter?_eq_some_iff.2 ⟨hd, rfl⟩, Option.getD_some]
  | edit s name f =>
    rcases hupdate s name f with heq | ⟨r, hr, heq⟩
    · exact .inr (.inl heq)
    · exact .inr (.inr (.inr ⟨r, name, f, hr, heq⟩))
  | editProcedure name f =>
    rcases hupdate global name (·.mapProcedure f) with heq | ⟨r, hr, heq⟩
    · exact .inr (.inl heq)
    · exact .inr (.inr (.inr ⟨r, name, _, hr, heq⟩))
  | editLocal s name f => exact .inr (.inr (.inr ⟨s, name, _, ho, rfl⟩))

/-- The scopes of the first table are in the second one at the same place, with all their names in
the same order. -/
structure Keeps (t t' : SymbolTable) : Prop where
  hasScope : ∀ s, t.HasScope s → t'.HasScope s
  enclosing : ∀ s, t.HasScope s → (t'.scope s).enclosing = (t.scope s).enclosing
  names : ∀ s, t.HasScope s → (t.scope s).names <+: (t'.scope s).names

theorem Keeps.refl (t : SymbolTable) : t.Keeps t :=
  ⟨fun _ hs => hs, fun _ _ => rfl, fun _ _ => List.prefix_refl _⟩

theorem Keeps.trans {t'' : SymbolTable} (h : t.Keeps t') (h' : t'.Keeps t'') : t.Keeps t'' where
  hasScope s hs := h'.hasScope s (h.hasScope s hs)
  enclosing s hs := (h'.enclosing s (h.hasScope s hs)).trans (h.enclosing s hs)
  names s hs := (h.names s hs).trans (h'.names s (h.hasScope s hs))

theorem names_eq_nil_of_not_hasScope (h : ¬t.HasScope s) : (t.scope s).names = [] := by
  rw [scope, List.getElem?_eq_none (Nat.le_of_not_lt h)]
  rfl

theorem keeps_newScope (t : SymbolTable) (p : ScopeId) : t.Keeps (t.newScope p).2 where
  hasScope _ hs := hasScope_newScope_iff.2 (.inl hs)
  enclosing _ hs := by rw [scope_newScope hs]
  names _ hs := (scope_newScope hs p).symm ▸ List.prefix_refl _

theorem keeps_modifyScope (hs : t.HasScope s) {f : Scope → Scope}
    (henc : ∀ c, (f c).enclosing = c.enclosing) (hn : ∀ c, c.names <+: (f c).names) :
    t.Keeps (t.modifyScope s f) where
  hasScope _ hq := hasScope_modifyScope_iff.2 hq
  enclosing q _ := by
    rw [scope_modifyScope hs]
    split
    · exact henc _
    · rfl
  names q _ := by
    rw [scope_modifyScope hs]
    split
    · exact hn _
    · exact List.prefix_refl _

namespace Nested

/-- A new scope lies in an older one. -/
theorem newScope (h : t.Nested) (hp : t.HasScope p) : (t.newScope p).2.Nested where
  hasGlobal := hasScope_newScope_iff.2 (.inl h.hasGlobal)
  outermost := by rw [scope_newScope h.hasGlobal, h.outermost]
  inside s hs hne := by
    rcases hasScope_newScope_iff.1 hs with hs | rfl
    · obtain ⟨q, hlt, henc⟩ := h.inside s hs hne
      have hs' : s.index < t.scopes.length := hs
      have hq : t.HasScope q := Nat.lt_trans hlt hs'
      exact ⟨q, hlt, by rw [scope_newScope hs, henc, chain, chain, scope_newScope hq]⟩
    · exact ⟨p, hp, by rw [scope_newScope_self, chain, chain, scope_newScope hp]⟩
  nodup s := by
    by_cases hs : (t.newScope p).2.HasScope s
    · rcases hasScope_newScope_iff.1 hs with hs | rfl
      · rw [scope_newScope hs]
        exact h.nodup s
      · rw [scope_newScope_self]
        exact List.nodup_nil
    · rw [names_eq_nil_of_not_hasScope hs]
      exact List.nodup_nil

/-- A change inside one scope keeps the scopes nested. -/
theorem modifyScope (h : t.Nested) (hs : t.HasScope s) {f : Scope → Scope}
    (henc : ∀ c, (f c).enclosing = c.enclosing) (hn : (f (t.scope s)).names.Nodup) :
    (t.modifyScope s f).Nested := by
  have hsame : ∀ q, ((t.modifyScope s f).scope q).enclosing = (t.scope q).enclosing := fun q => by
    rw [scope_modifyScope hs]
    split
    · exact henc _
    · rfl
  exact
    { hasGlobal := hasScope_modifyScope_iff.2 h.hasGlobal
      outermost := by rw [hsame, h.outermost]
      inside := fun q hq hne => by
        obtain ⟨p, hlt, henc⟩ := h.inside q (hasScope_modifyScope_iff.1 hq) hne
        exact ⟨p, hlt, by rw [hsame, henc, chain, chain, hsame]⟩
      nodup := fun q => by
        rw [scope_modifyScope hs]
        split
        · next hq => exact hq ▸ hn
        · exact h.nodup q }

/-- Every operation keeps the scopes nested, in place and with their names. -/
theorem perform (h : t.Nested) {o : Operation} (ho : o.Admissible t) :
    (t.perform o).Nested ∧ t.Keeps (t.perform o) := by
  rcases perform_cases ho with
    ⟨p, hp, heq⟩ | heq | ⟨s, name, e, hs, hd, heq⟩ | ⟨s, name, f, hs, heq⟩
  · rw [heq]
    exact ⟨h.newScope hp, keeps_newScope t p⟩
  · rw [heq]
    exact ⟨h, .refl t⟩
  · rw [heq]
    refine ⟨h.modifyScope hs (fun _ => rfl) (Scope.nodup_add (h.nodup s) hd e),
      keeps_modifyScope hs (fun _ => rfl) fun c => ?_⟩
    rw [Scope.names_add]
    exact List.prefix_append _ _
  · have hnames : ∀ c : Scope, (c.update name f).names = c.names := fun c =>
      c.map_fst_update name f
    rw [heq]
    refine ⟨h.modifyScope hs (fun _ => rfl) ((hnames _).symm ▸ h.nodup s),
      keeps_modifyScope hs (fun _ => rfl) fun c => ?_⟩
    exact (hnames c).symm ▸ List.prefix_refl _

theorem evolves (h : t.Nested) (hr : t.Evolves t') : t'.Nested ∧ t.Keeps t' := by
  induction hr with
  | refl => exact ⟨h, .refl t⟩
  | tail _ hstep ih =>
    obtain ⟨hn, hk⟩ := ih
    obtain ⟨o, ho, rfl⟩ := hstep
    obtain ⟨hn', hk'⟩ := hn.perform ho
    exact ⟨hn', hk.trans hk'⟩

end Nested

theorem nested_empty : empty.Nested where
  hasGlobal := Nat.zero_lt_one
  outermost := rfl
  inside s hs hne := by
    have hs' : s.index < 1 := hs
    exact absurd (congrArg ScopeId.mk (Nat.lt_one_iff.1 hs')) hne
  nodup s := by
    obtain ⟨_ | i⟩ := s <;> exact List.nodup_nil

theorem nested_predefined : predefined.Nested where
  hasGlobal := by decide
  outermost := by decide
  inside s hs hne := by
    have hall : ∀ i < 11, i ≠ 0 → 0 < i ∧ (predefined.scope ⟨i⟩).enclosing = [global] := by decide
    obtain ⟨i⟩ := s
    obtain ⟨hlt, henc⟩ := hall i hs fun hc => hne (congrArg ScopeId.mk hc)
    exact ⟨global, hlt, henc⟩
  nodup s := by
    have hall : ∀ i < 11, (predefined.scope ⟨i⟩).names.Nodup := by decide
    by_cases hs : predefined.HasScope s
    · exact hall s.index hs
    · rw [names_eq_nil_of_not_hasScope hs]
      exact List.nodup_nil

/-! ## The laws -/

/-- The laws of nested scopes. -/
structure Laws (t : SymbolTable) : Prop where
  -- the way out leads to older scopes and ends at the global one
  global_parent : (t.scope global).parent? = none
  parent_older : ∀ s, t.HasScope s → s ≠ global →
    ∃ p, (t.scope s).parent? = some p ∧ p.index < s.index
  outward_global : ∀ s, t.HasScope s → t.Outward s global
  -- no scope has a name twice, and no run loses or moves a name
  nodup : ∀ s, (t.scope s).names.Nodup
  kept : ∀ t', t.Evolves t' → t.Keeps t'
  -- a name means what the nearest scope on the way out declares
  find_some : ∀ s name e, t.HasScope s →
    (t.find? s name = some e ↔ ∃ r, t.Nearest name s r ∧ (t.scope r).get? name = some e)
  find_none : ∀ s name, t.HasScope s →
    (t.find? s name = none ↔ ∀ r, t.Outward s r → (t.scope r).declares name = false)
  -- a name that the scope has is refused, and any other one is put last
  taken : ∀ s name e position cause, (t.scope s).declares name = true →
    enterNew t s name e position cause = Failure.report position cause ∧
      t.perform (.enter s name e) = t
  entered : ∀ s name e, t.HasScope s → (t.scope s).declares name = false →
    ∃ t', (∀ position cause, enterNew t s name e position cause = .ok t') ∧
      t.perform (.enter s name e) = t' ∧ t.Puts s name e t' ∧ t.Redefines s name e t' ∧
      (t'.scope s).names = (t.scope s).names ++ [name]
  -- a change in place reaches the entry that the look-up gives, and no other
  edited : ∀ s name e f, t.HasScope s → t.find? s name = some e →
    ∃ r, t.Nearest name s r ∧ t.Puts r name (f e) (t.perform (.edit s name f)) ∧
      t.Redefines r name (f e) (t.perform (.edit s name f))
  unedited : ∀ s name f, t.HasScope s → t.find? s name = none →
    t.perform (.edit s name f) = t
  editedProcedure : ∀ name P f, t.procedure? name = some P →
    t.Puts global name (.proc (f P)) (t.perform (.editProcedure name f)) ∧
      t.Redefines global name (.proc (f P)) (t.perform (.editProcedure name f))
  uneditedProcedure : ∀ name f, t.procedure? name = none →
    t.perform (.editProcedure name f) = t
  editedLocal : ∀ s name v f, t.local? s name = some v →
    t.Puts s name (.var (f v)) (t.perform (.editLocal s name f)) ∧
      t.Redefines s name (.var (f v)) (t.perform (.editLocal s name f))
  uneditedLocal : ∀ s name f, t.local? s name = none →
    t.perform (.editLocal s name f) = t

theorem modifyScope_eq_self {f : Scope → Scope} (h : f (t.scope s) = t.scope s) :
    t.modifyScope s f = t := by
  obtain ⟨i⟩ := s
  obtain ⟨l⟩ := t
  simp only [modifyScope, SymbolTable.mk.injEq]
  refine List.ext_getElem? fun j => ?_
  rw [List.getElem?_modify]
  by_cases hj : i = j
  · subst hj
    cases hg : l[i]? with
    | none => rfl
    | some c =>
      simp only [scope, hg, Option.getD_some] at h
      simp [h]
  · simp [hj]

theorem mapProcedure_eq_self (hp : t.procedure? name = none)
    (he : (t.scope global).get? name = some e) (f : Procedure → Procedure) :
    e.mapProcedure f = e := by
  cases e with
  | type _ => rfl
  | var _ => rfl
  | proc P => rw [procedure?_eq_some_iff.2 he] at hp; cases hp

theorem mapVariable_eq_self (hv : t.local? s name = none) (he : (t.scope s).get? name = some e)
    (f : Variable → Variable) : e.mapVariable f = e := by
  cases e with
  | type _ => rfl
  | var v => rw [local?_eq_some_iff.2 he] at hv; cases hv
  | proc _ => rfl

namespace Nested

theorem puts_update (h : t.Nested) (hs : t.HasScope s) (hr : t.Nearest name s r)
    (he : (t.scope r).get? name = some e) (f : Entry → Entry) :
    t.Puts r name (f e) (t.update s name f) := by
  rw [update, h.declaring?_of_nearest hs hr]
  exact puts_modifyScope he f

/-- A change that leaves the entry as it is leaves the table as it is. -/
theorem update_eq_self (h : t.Nested) {f : Entry → Entry}
    (hf : ∀ e, t.find? s name = some e → f e = e) : t.update s name f = t := by
  unfold update
  cases hr : t.declaring? s name with
  | none => rfl
  | some r =>
    refine modifyScope_eq_self (Scope.update_eq_self (h.nodup r) fun e he => hf e ?_)
    rw [find?_eq_get?_of_declaring? hr, he]

/-- Nested scopes obey the laws. -/
theorem laws (h : t.Nested) : t.Laws where
  global_parent := h.parent?_global
  parent_older s hs hne := by
    obtain ⟨p, hp⟩ := h.exists_parent hs hne
    exact ⟨p, hp, (h.parent hs hp).1⟩
  outward_global _ hs := h.outward_global hs
  nodup := h.nodup
  kept _ hr := (h.evolves hr).2
  find_some _ _ _ hs := h.find?_eq_some_iff hs
  find_none _ _ hs := h.find?_eq_none_iff hs
  taken s name e position cause hd := by
    have hn : t.enter? s name e = none := enter?_eq_none_iff.2 hd
    exact ⟨by rw [enterNew, hn], by rw [SymbolTable.perform, hn, Option.getD_none]⟩
  entered s name e hs hd := by
    have hn : t.enter? s name e = some (t.modifyScope s (·.add name e)) :=
      enter?_eq_some_iff.2 ⟨hd, rfl⟩
    have hnested := h.modifyScope hs (f := (·.add name e)) (fun _ => rfl)
      (Scope.nodup_add (h.nodup s) hd e)
    refine ⟨_, fun _ _ => by rw [enterNew, hn],
      by rw [SymbolTable.perform, hn, Option.getD_some], puts_add hs hd e,
      h.redefines hnested (puts_add hs hd e), ?_⟩
    rw [scope_modifyScope hs, if_pos rfl, Scope.names_add]
  edited s name e f hs he := by
    obtain ⟨r, hr, hget⟩ := (h.find?_eq_some_iff hs).1 he
    have hP := h.puts_update hs hr hget f
    exact ⟨r, hr, hP, h.redefines (h.perform (o := .edit s name f) hs).1 hP⟩
  unedited _ _ _ _ hn := h.update_eq_self fun _ he => by
    rw [hn] at he
    cases he
  editedProcedure name P f hP := by
    have hget := procedure?_eq_some_iff.1 hP
    have hr : t.Nearest name global global := .here (by rw [Scope.declares, hget]; rfl)
    have hputs := h.puts_update h.hasGlobal hr hget (·.mapProcedure f)
    exact ⟨hputs, h.redefines (h.perform (o := .editProcedure name f) trivial).1 hputs⟩
  uneditedProcedure name f hP := h.update_eq_self fun e he =>
    mapProcedure_eq_self hP (by rw [← h.find?_global, he]) f
  editedLocal s name v f hv := by
    have hget := local?_eq_some_iff.1 hv
    have hs : t.HasScope s := hasScope_of_declares (by rw [Scope.declares, hget]; rfl)
    have hputs := puts_modifyScope hget (·.mapVariable f)
    exact ⟨hputs, h.redefines (h.perform (o := .editLocal s name f) hs).1 hputs⟩
  uneditedLocal s name f hv := modifyScope_eq_self <|
    Scope.update_eq_self (h.nodup s) fun _ he => mapVariable_eq_self hv he f

end Nested

/-- Every table that comes from the empty or the predefined one by a run of operations obeys the
laws of nested scopes. -/
theorem laws_of_evolves {t₀ t : SymbolTable} (h₀ : t₀ = empty ∨ t₀ = predefined)
    (h : t₀.Evolves t) : t.Laws := by
  have hnested : t₀.Nested := by
    rcases h₀ with rfl | rfl
    · exact nested_empty
    · exact nested_predefined
  exact (hnested.evolves h).1.laws

/-- A local variable hides the type `int`, also from the scope inside, and gets its offset. -/
theorem laws_of_evolves_shadowing :
    ∃ t, predefined.Evolves t ∧
      t.find? ⟨12⟩ "int" =
        some (.var { type := .int, isReference := false, offset := some (-4) }) ∧
      t.find? global "int" = some (.type .int) ∧ t.Laws := by
  let t₁ := predefined.perform (.newScope global)
  let t₂ := t₁.perform (.enter ⟨11⟩ "int" (.var { type := .int, isReference := false }))
  let t₃ := t₂.perform (.newScope ⟨11⟩)
  let t₄ := t₃.perform (.editLocal ⟨11⟩ "int" ({ · with offset := some (-4) }))
  have h₁ : predefined.Step t₁ := ⟨.newScope global, (by decide : predefined.HasScope global), rfl⟩
  have h₂ : t₁.Step t₂ := ⟨.enter _ _ _, (by decide : t₁.HasScope ⟨11⟩), rfl⟩
  have h₃ : t₂.Step t₃ := ⟨.newScope _, (by decide : t₂.HasScope ⟨11⟩), rfl⟩
  have h₄ : t₃.Step t₄ := ⟨.editLocal _ _ _, (by decide : t₃.HasScope ⟨11⟩), rfl⟩
  have h : predefined.Evolves t₄ := .head h₁ (.head h₂ (.head h₃ (.single h₄)))
  exact ⟨t₄, h, by decide, by decide, laws_of_evolves (.inr rfl) h⟩

end SymbolTable

end Spl
