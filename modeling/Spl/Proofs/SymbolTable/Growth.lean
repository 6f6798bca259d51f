import Spl.SymbolTable.Lemmas

/-!
# Tables that only grow by empty scopes

The check of bodies opens a scope for every compound statement and enters nothing into it. So it
changes no scope that exists, and a name means the same in a new scope as around it.

* `SymbolTable.Extends`: one table is another one with more scopes, all of them empty.
* `SymbolTable.find?_of_extends`: names keep their meaning.
* `SymbolTable.find?_newScope`: a new scope adds no meaning.
-/

namespace Spl.SymbolTable

/-- The second table has the scopes of the first one and after them empty ones. -/
def Extends (t t' : SymbolTable) : Prop :=
  ∃ added : List Scope, t'.scopes = t.scopes ++ added ∧ ∀ s ∈ added, s.entries = []

/-- True of a scope that exists together with all the scopes around it. -/
def Closed (t : SymbolTable) (id : ScopeId) : Prop := ∀ s ∈ t.chain id, t.HasScope s

theorem Extends.refl (t : SymbolTable) : t.Extends t := ⟨[], by simp, by simp⟩

theorem Extends.trans {t₁ t₂ t₃ : SymbolTable} (h₁ : t₁.Extends t₂) (h₂ : t₂.Extends t₃) :
    t₁.Extends t₃ := by
  obtain ⟨a, ha, he⟩ := h₁
  obtain ⟨b, hb, hf⟩ := h₂
  refine ⟨a ++ b, by rw [hb, ha, List.append_assoc], fun s hs => ?_⟩
  exact (List.mem_append.1 hs).elim (he s) (hf s)

theorem Extends.newScope (t : SymbolTable) (parent : ScopeId) :
    t.Extends (t.newScope parent).2 :=
  ⟨[_], rfl, fun _ hs => by rw [List.mem_singleton.1 hs]⟩

section
variable {t t' : SymbolTable} {id : ScopeId}

theorem Extends.hasScope (h : t.Extends t') (hs : t.HasScope id) : t'.HasScope id := by
  obtain ⟨added, ha, -⟩ := h
  simp only [HasScope, ha, List.length_append] at *
  omega

theorem Extends.scope_eq (h : t.Extends t') (hs : t.HasScope id) : t'.scope id = t.scope id := by
  obtain ⟨added, ha, -⟩ := h
  simp only [scope, ha]
  rw [List.getElem?_append_left hs]

theorem Extends.chain_eq (h : t.Extends t') (hs : t.HasScope id) : t'.chain id = t.chain id := by
  simp only [chain, h.scope_eq hs]

theorem Closed.hasScope (h : t.Closed id) : t.HasScope id := h id (.head _)

theorem Extends.closed (h : t.Extends t') (hc : t.Closed id) : t'.Closed id := by
  intro s hs
  rw [h.chain_eq hc.hasScope] at hs
  exact h.hasScope (hc s hs)

/-- Names keep their meaning when a table grows. -/
theorem find?_of_extends (h : t.Extends t') (hc : t.Closed id) (name : String) :
    t'.find? id name = t.find? id name := by
  have aux : ∀ l : List ScopeId, (∀ s ∈ l, t.HasScope s) →
      l.findSome? (fun s => (t'.scope s).get? name) =
        l.findSome? (fun s => (t.scope s).get? name) := by
    intro l hl
    induction l with
    | nil => rfl
    | cons a l ih =>
      rw [List.findSome?_cons, List.findSome?_cons, h.scope_eq (hl a (.head _)),
        ih fun s hs => hl s (.tail _ hs)]
  unfold find?
  rw [h.chain_eq hc.hasScope]
  exact aux _ hc

theorem chain_newScope (t : SymbolTable) (parent : ScopeId) :
    (t.newScope parent).2.chain (t.newScope parent).1 =
      (t.newScope parent).1 :: t.chain parent := by
  rw [chain, scope_newScope_self]

theorem closed_newScope (hc : t.Closed id) : (t.newScope id).2.Closed (t.newScope id).1 := by
  intro s hs
  rw [chain_newScope] at hs
  rcases List.mem_cons.1 hs with rfl | hs
  · exact hasScope_newScope_iff.2 (.inr rfl)
  · exact hasScope_newScope_iff.2 (.inl (hc s hs))

/-- A new scope adds no meaning to those around it. -/
theorem find?_newScope (hc : t.Closed id) (name : String) :
    (t.newScope id).2.find? (t.newScope id).1 name = t.find? id name := by
  rw [← find?_of_extends (Extends.newScope t id) hc]
  rw [find?, chain_newScope, List.findSome?_cons, scope_newScope_self, find?,
    (Extends.newScope t id).chain_eq hc.hasScope]
  rfl

end

end Spl.SymbolTable
