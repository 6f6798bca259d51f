import Mathlib.Data.List.Perm.Basic
import Spl.Proofs.SymbolTable.Laws
import Spl.Proofs.Typing.Meaning
import Spl.Proofs.Typing.Tables

/-!
# Procedures in another order

Two programs that differ in the order of their procedures, where no procedure is moved across the
declaration of a type. Entries and local scopes of their tables are numbered differently, and each
procedure may be called before or after its declaration. The first two phases accept either both
programs or none, and make the same of every procedure.

* `Decl.Reordered`, `Program.Reordered`: the same declarations, procedures in another order.
* `Program.Correct`, `buildAndCheck_decides`: what the first two phases accept, exactly.
* `SymbolTable.Alike`: tables that differ in the numbers of local scopes and the order of entries.
* `buildAndCheck_reordered`: the first two phases.
-/

namespace Spl

open SymbolTable

/-! ## Reordered programs -/

/-- Two lists of declarations differ in the order of procedures. No procedure is moved across a
type. -/
inductive Decl.Reordered : List Decl → List Decl → Prop
  | nil : Reordered [] []
  | cons (d : Decl) {ds ds' : List Decl} : Reordered ds ds' → Reordered (d :: ds) (d :: ds')
  | swap (d d' : ProcDecl) (ds : List Decl) :
      Reordered (.procedure d :: .procedure d' :: ds) (.procedure d' :: .procedure d :: ds)
  | trans {ds ds' ds'' : List Decl} :
      Reordered ds ds' → Reordered ds' ds'' → Reordered ds ds''

/-- Two programs differ in the order of procedures. No procedure is moved across a type. -/
structure Program.Reordered (p p' : Program) : Prop where
  position : p'.position = p.position
  declarations : Decl.Reordered p.declarations p'.declarations

theorem Decl.Reordered.refl : ∀ ds : List Decl, Reordered ds ds
  | [] => .nil
  | d :: ds => .cons d (refl ds)

/-- Procedures between which there is no type may stand in any order. -/
theorem Decl.Reordered.of_perm {ps ps' : List ProcDecl} (h : ps.Perm ps') (ds : List Decl) :
    Reordered (ps.map .procedure ++ ds) (ps'.map .procedure ++ ds) := by
  induction h with
  | nil => exact .refl ds
  | cons p _ ih => exact .cons (.procedure p) ih
  | swap p p' ps => exact .swap p' p _
  | trans _ _ ih ih' => exact .trans ih ih'

theorem Decl.Reordered.symm {ds ds' : List Decl} (h : Reordered ds ds') : Reordered ds' ds := by
  induction h with
  | nil => exact .nil
  | cons d _ ih => exact .cons d ih
  | swap d d' ds => exact .swap d' d ds
  | trans _ _ ih ih' => exact .trans ih' ih

theorem Decl.Reordered.perm {ds ds' : List Decl} (h : Reordered ds ds') : ds.Perm ds' := by
  induction h with
  | nil => exact .nil
  | cons d _ ih => exact ih.cons d
  | swap d d' ds => exact .swap _ _ ds
  | trans _ _ ih ih' => exact ih.trans ih'

theorem Program.Reordered.symm {p p' : Program} (h : p.Reordered p') : p'.Reordered p :=
  ⟨h.position.symm, h.declarations.symm⟩

theorem Program.Reordered.isFresh {p p' : Program} (h : p.Reordered p') (hp : p.isFresh = true) :
    p'.isFresh = true := by
  simp only [Program.isFresh, List.all_eq_true] at hp ⊢
  exact fun d hd => hp d (h.declarations.perm.mem_iff.2 hd)

/-! ## Declared types -/

namespace TypedDecl

variable {Γ : Types} {ms ms' : List TypedDecl}

/-- Declarations denote their types in one way at most. -/
theorem AllDenote.unique (h : AllDenote Γ ms) (h' : AllDenote Γ ms')
    (hd : ms.map decl = ms'.map decl) : ms = ms' := by
  induction h generalizing ms' with
  | nil => exact (List.map_eq_nil_iff.1 hd.symm).symm
  | cons hm _ ih =>
    cases h' with
    | nil => cases hd
    | cons hm' hms' =>
      obtain ⟨hhead, htail⟩ := List.cons_eq_cons.1 hd
      cases hm.unique hm' hhead
      rw [ih hms' htail]

/-- The procedures among declarations, with their types. -/
def procedures (ms : List TypedDecl) : List ProcDecl := (ms.map tree).filterMap Decl.procedure?

theorem procedures_perm (h : ms.Perm ms') : (procedures ms).Perm (procedures ms') :=
  (h.map tree).filterMap _

theorem mem_procedures_iff {d : ProcDecl} :
    d ∈ procedures ms ↔ ∃ d₀ ps ls, .procedure d₀ ps ls ∈ ms ∧ d = d₀.annotate ps ls := by
  unfold procedures
  rw [List.mem_filterMap]
  constructor
  · rintro ⟨e, he, hd⟩
    obtain ⟨m, hm, rfl⟩ := List.mem_map.1 he
    cases m with
    | type d' ty => cases hd
    | procedure d' ps ls =>
      cases hd
      exact ⟨d', ps, ls, hm, rfl⟩
  · rintro ⟨d₀, ps, ls, hm, rfl⟩
    exact ⟨_, List.mem_map_of_mem hm, rfl⟩

end TypedDecl

/-- Procedures declare no type that those after them could name, so they denote the same types in
every order. -/
theorem Decl.Reordered.denote {ds ds' : List Decl} (h : Reordered ds ds') :
    ∀ {Γ : Types} {ms : List TypedDecl}, ms.map TypedDecl.decl = ds → TypedDecl.AllDenote Γ ms →
      ∃ ms', ms'.map TypedDecl.decl = ds' ∧ TypedDecl.AllDenote Γ ms' ∧ ms.Perm ms' := by
  induction h with
  | nil => exact fun hm hden => ⟨_, hm, hden, .refl _⟩
  | cons d _ ih =>
    intro Γ ms hm hden
    cases hden with
    | nil => cases hm
    | @cons _ m ms hd hms =>
      obtain ⟨rfl, htail⟩ := List.cons_eq_cons.1 hm
      obtain ⟨ms', hm', hms', hp⟩ := ih htail hms
      exact ⟨m :: ms', congrArg (_ :: ·) hm', .cons hd hms', hp.cons m⟩
  | swap d d' ds =>
    intro Γ ms hm hden
    match ms, hden with
    | .procedure q ps ls :: .procedure q' ps' ls' :: ms, .cons hd (.cons hd' hms) =>
      cases hm
      exact ⟨.procedure d' ps' ls' :: .procedure d ps ls :: ms, rfl, .cons hd' (.cons hd hms),
        .swap _ _ ms⟩
  | trans _ _ ih ih' =>
    intro Γ ms hm hden
    obtain ⟨ms', hm', hden', hp⟩ := ih hm hden
    obtain ⟨ms'', hm'', hden'', hp'⟩ := ih' hm' hden'
    exact ⟨ms'', hm'', hden'', hp.trans hp'⟩

theorem Program.Reordered.wellFormed {p p' : Program} (h : p.Reordered p') {entry : String}
    (hw : p.WellFormed entry) : p'.WellFormed entry where
  distinct := ((h.declarations.perm.map Decl.name).append_left _).nodup_iff.1 hw.distinct
  denotes := by
    obtain ⟨ms, hm, hden⟩ := hw.denotes
    obtain ⟨ms', hm', hden', -⟩ := h.declarations.denote hm hden
    exact ⟨ms', hm', hden'⟩
  entry := by
    obtain ⟨d, hd, hn⟩ := hw.entry
    exact ⟨d, (h.declarations.perm.filterMap _).mem_iff.1 hd, hn⟩

/-! ## Tables alike -/

/-- Two tables hold a procedure alike: its parameters, its frame and what its local scope holds. The
numbers of the local scopes do not matter. -/
structure Procedure.Alike (t t' : SymbolTable) (P P' : Procedure) : Prop where
  parameters : P'.parameters = P.parameters
  layout : P'.layout = P.layout
  isBuiltin : P'.isBuiltin = P.isBuiltin
  scope : t'.scope P'.localScope = t.scope P.localScope
  enclosing : (t.scope P.localScope).enclosing = [global]
  distinct : (t.scope P.localScope).names.Nodup
  hasScope : t.HasScope P.localScope ∧ t'.HasScope P'.localScope

/-- Two tables hold a global entry alike: the same type, or a procedure. -/
inductive Entry.Alike (t t' : SymbolTable) : Entry → Entry → Prop
  | type {ty : Ty} : Alike t t' (.type ty) (.type ty)
  | proc {P P' : Procedure} : P.Alike t t' P' → Alike t t' (.proc P) (.proc P')

/-- Two tables hold the same names, types and procedures. The order of their global entries and the
numbers of local scopes do not matter. -/
structure SymbolTable.Alike (t t' : SymbolTable) : Prop where
  hasScope : t.HasScope global ∧ t'.HasScope global
  get? : ∀ name, Option.Rel (Entry.Alike t t') ((t.scope global).get? name)
    ((t'.scope global).get? name)

section

variable {t t' u u' : SymbolTable} {P P' : Procedure}

theorem Procedure.Alike.symm (h : P.Alike t t' P') : P'.Alike t' t P where
  parameters := h.parameters.symm
  layout := h.layout.symm
  isBuiltin := h.isBuiltin.symm
  scope := h.scope.symm
  enclosing := by rw [h.scope]; exact h.enclosing
  distinct := by rw [h.scope]; exact h.distinct
  hasScope := h.hasScope.symm

theorem Procedure.Alike.of_extends (h : P.Alike t t' P') (hx : t.Extends u) (hx' : t'.Extends u') :
    P.Alike u u' P' where
  parameters := h.parameters
  layout := h.layout
  isBuiltin := h.isBuiltin
  scope := by rw [hx.scope_eq h.hasScope.1, hx'.scope_eq h.hasScope.2, h.scope]
  enclosing := by rw [hx.scope_eq h.hasScope.1]; exact h.enclosing
  distinct := by rw [hx.scope_eq h.hasScope.1]; exact h.distinct
  hasScope := ⟨hx.hasScope h.hasScope.1, hx'.hasScope h.hasScope.2⟩

namespace SymbolTable

theorem Alike.of_extends (h : t.Alike t') (hx : t.Extends u) (hx' : t'.Extends u') :
    u.Alike u' where
  hasScope := ⟨hx.hasScope h.hasScope.1, hx'.hasScope h.hasScope.2⟩
  get? name := by
    rw [hx.scope_eq h.hasScope.1, hx'.scope_eq h.hasScope.2]
    have hrel := h.get? name
    generalize (t.scope global).get? name = o at hrel ⊢
    generalize (t'.scope global).get? name = o' at hrel ⊢
    cases hrel with
    | none => exact .none
    | some he =>
      cases he with
      | type => exact .some .type
      | proc hP => exact .some (.proc (hP.of_extends hx hx'))

theorem Alike.procedure? (h : t.Alike t') (name : String) :
    Option.Rel (Procedure.Alike t t') (t.procedure? name) (t'.procedure? name) := by
  have hrel := h.get? name
  unfold SymbolTable.procedure?
  generalize (t.scope global).get? name = o at hrel ⊢
  generalize (t'.scope global).get? name = o' at hrel ⊢
  cases hrel with
  | none => exact .none
  | some he =>
    cases he with
    | type => exact .none
    | proc hP => exact .some hP

theorem Alike.exists_procedure? (h : t.Alike t') {name : String}
    (hP : t.procedure? name = some P) :
    ∃ P', t'.procedure? name = some P' ∧ P.Alike t t' P' := by
  have hrel := h.procedure? name
  rw [hP] at hrel
  generalize t'.procedure? name = o at hrel ⊢
  cases hrel with
  | some hP' => exact ⟨_, rfl, hP'⟩

/-- In the local scopes of a procedure that two tables hold alike, a name stands for the same entry
or for global entries that are alike. -/
theorem Alike.find? (h : t.Alike t') (hP : P.Alike t t' P') (name : String) :
    Option.Rel (fun e e' => e' = e ∨ e.Alike t t' e') (t.find? P.localScope name)
      (t'.find? P'.localScope name) := by
  have henc : (t'.scope P'.localScope).enclosing = [global] := by
    rw [hP.scope]
    exact hP.enclosing
  rw [find?_of_enclosing hP.enclosing, find?_of_enclosing henc, hP.scope]
  cases (t.scope P.localScope).get? name with
  | some e => exact .some (.inl rfl)
  | none =>
    rw [Option.none_or, Option.none_or]
    have hrel := h.get? name
    generalize (t.scope global).get? name = o at hrel ⊢
    generalize (t'.scope global).get? name = o' at hrel ⊢
    cases hrel with
    | none => exact .none
    | some he => exact .some (.inr he)

/-- There, names stand for the same, as far as the rules see. -/
theorem Alike.within (h : t.Alike t') (hP : P.Alike t t' P') :
    Meaning.Within (t.find? P.localScope) (t'.find? P'.localScope) where
  var {name v} hv := by
    have hrel := h.find? hP name
    rw [hv] at hrel
    generalize t'.find? P'.localScope name = o at hrel ⊢
    cases hrel with
    | some he =>
      rcases he with rfl | he
      · rfl
      · cases he
  proc {name Q} hQ := by
    have hrel := h.find? hP name
    rw [hQ] at hrel
    generalize t'.find? P'.localScope name = o at hrel ⊢
    cases hrel with
    | some he =>
      rcases he with rfl | he
      · exact ⟨Q, rfl, rfl⟩
      · cases he with
        | proc hQ' => exact ⟨_, rfl, hQ'.parameters⟩

end SymbolTable

/-- The same bodies obey the rules in tables that are alike. -/
theorem ProcDecl.Derivable.of_alike {d : ProcDecl} (h : t.Alike t') (hd : d.Derivable t) :
    d.Derivable t' := by
  obtain ⟨P, hP, hss⟩ := hd
  obtain ⟨P', hP', halike⟩ := h.exists_procedure? hP
  exact ⟨P', hP', fun s hs => (hss s hs).mono (h.within halike)⟩

end

/-! ## The tables of reordered declarations -/

namespace TypedDecl

theorem map_fst_entries (ms : List TypedDecl) (next : Nat) :
    (entries next ms).map Prod.fst = ms.map name := by
  induction ms generalizing next with
  | nil => rfl
  | cons m ms ih => rw [entries, List.map_cons, List.map_cons, ih]

/-- The variables of a declared procedure have distinct names. -/
theorem Denotes.nodup_names {Γ : Types} {m : TypedDecl} (h : m.Denotes Γ) :
    ∀ s ∈ m.scopes, s.names.Nodup := by
  intro s hs
  cases m with
  | type d ty => cases hs
  | procedure d ps ls =>
    have hd : d.HasTypes Γ ps ls := h
    have hps : d.parameters.length = ps.length := by
      rw [← hd.parameters.length_eq, List.length_map]
    cases List.mem_singleton.1 hs
    rw [Scope.names, localScope, List.map_map, List.map_append]
    show ((ProcDecl.parameterVariables d.parameters ps).map Prod.fst ++
      (ProcDecl.localVariables d.locals ls).map Prod.fst).Nodup
    rw [map_fst_parameterVariables hps, map_fst_localVariables hd.locals.length_eq]
    exact hd.distinct

theorem AllDenote.exists_denotes {Γ : Types} {ms : List TypedDecl} (h : AllDenote Γ ms) :
    ∀ m ∈ ms, ∃ Γ', m.Denotes Γ' := by
  induction h with
  | nil => exact fun _ hm => nomatch hm
  | cons hm _ ih =>
    intro m hmem
    rcases List.mem_cons.1 hmem with rfl | hmem
    · exact ⟨_, hm⟩
    · exact ih m hmem

/-- Each declaration has an entry, with the number of its local scope. -/
theorem mem_entries {m : TypedDecl} {ms : List TypedDecl} (hm : m ∈ ms) (next : Nat) :
    ∃ k, (m.name, m.entry (next + k)) ∈ entries next ms ∧
      ∀ s ∈ m.scopes, (ms.flatMap scopes)[k]? = some s := by
  induction ms generalizing next with
  | nil => cases hm
  | cons m₀ ms ih =>
    rw [entries, List.flatMap_cons]
    rcases List.mem_cons.1 hm with rfl | hm
    · refine ⟨0, .head _, fun s hs => ?_⟩
      cases m with
      | type d ty => cases hs
      | procedure d ps ls =>
        cases List.mem_singleton.1 hs
        rfl
    · obtain ⟨k, hk, hs⟩ := ih hm (next + m₀.scopes.length)
      refine ⟨m₀.scopes.length + k, .tail _ (by rwa [← Nat.add_assoc]), fun s hm => ?_⟩
      rw [List.getElem?_append_right (by omega), Nat.add_sub_cancel_left]
      exact hs s hm

end TypedDecl

namespace SymbolTable

variable {ms ms' : List TypedDecl} {name : String}

theorem names_declaring (ms : List TypedDecl) : ((declaring ms).scope global).names =
    "int" :: "bool" :: builtins.map Builtin.name ++ ms.map TypedDecl.name := by
  rw [← names_predefined, ← TypedDecl.map_fst_entries ms predefined.scopes.length,
    ← List.map_append]
  rfl

theorem scopes_predefined : predefined.scopes.length = predefined.scopes.tail.length + 1 := by
  decide

/-- The entry of a declared name, and the local scope of a procedure. -/
theorem get?_declaring (hn : ((declaring ms).scope global).names.Nodup) {m : TypedDecl}
    (hm : m ∈ ms) : ∃ i, predefined.scopes.length ≤ i ∧
      ((declaring ms).scope global).get? m.name = some (m.entry i) ∧
      ∀ s ∈ m.scopes, (declaring ms).HasScope ⟨i⟩ ∧ (declaring ms).scope ⟨i⟩ = s := by
  obtain ⟨k, hk, hs⟩ := TypedDecl.mem_entries hm predefined.scopes.length
  refine ⟨_, Nat.le_add_right _ k, Scope.get?_of_mem hn (List.mem_append.2 (.inr hk)),
    fun s hm => ?_⟩
  have hget : (declaring ms).scopes[predefined.scopes.length + k]? = some s := by
    show (_ :: (predefined.scopes.tail ++ ms.flatMap TypedDecl.scopes))[_]? = _
    rw [scopes_predefined, Nat.add_right_comm, List.getElem?_cons_succ,
      List.getElem?_append_right (by omega), Nat.add_sub_cancel_left]
    exact hs s hm
  exact ⟨(List.getElem?_eq_some_iff.1 hget).1, by rw [scope, hget]; rfl⟩

/-- A name that is not declared stands for what it stands for in the predefined table. -/
theorem get?_declaring_of_not_mem (h : name ∉ ms.map TypedDecl.name) :
    ((declaring ms).scope global).get? name = (predefined.scope global).get? name := by
  rw [← TypedDecl.map_fst_entries ms predefined.scopes.length, ← lookup_eq_none_iff] at h
  show ((predefined.scope global).entries ++ _).lookup name = _
  rw [List.lookup_append, h, Option.or_none]
  rfl

/-- The local scopes of builtins stay where they are. -/
theorem scope_declaring_of_hasScope (ms : List TypedDecl) {id : ScopeId}
    (h : predefined.HasScope id) (hg : id ≠ global) :
    (declaring ms).HasScope id ∧ (declaring ms).scope id = predefined.scope id := by
  obtain ⟨_ | i⟩ := id
  · exact absurd rfl hg
  · have hi : i < predefined.scopes.tail.length := Nat.lt_of_succ_lt_succ h
    have hget : (declaring ms).scopes[i + 1]? = predefined.scopes[i + 1]? := by
      show (_ :: (predefined.scopes.tail ++ ms.flatMap TypedDecl.scopes))[i + 1]? = _
      rw [List.getElem?_cons_succ, List.getElem?_append_left hi, List.getElem?_tail]
    have hlt := List.getElem?_eq_getElem h
    exact ⟨(List.getElem?_eq_some_iff.1 (hget.trans hlt)).1, by rw [scope, hget, scope]⟩

/-- The local scopes of builtins lie directly in the global one, and before all others. -/
theorem localScope_predefined {P : Procedure}
    (h : (predefined.scope global).get? name = some (.proc P)) :
    predefined.HasScope P.localScope ∧ P.localScope ≠ global ∧
      (predefined.scope P.localScope).enclosing = [global] := by
  have hall : ∀ x ∈ (predefined.scope global).entries, ∀ P ∈ x.2.proc?,
      P.localScope.index < predefined.scopes.length ∧ P.localScope ≠ global ∧
        (predefined.scope P.localScope).enclosing = [global] := by decide
  exact hall _ (mem_of_lookup h) P rfl

/-- The tables of the same declarations in two orders are alike. -/
theorem declaring_alike (h : ms.Perm ms') (hn : ((declaring ms).scope global).names.Nodup)
    {Γ : Types} (hden : TypedDecl.AllDenote Γ ms) : (declaring ms).Alike (declaring ms') where
  hasScope := ⟨Nat.zero_lt_succ _, Nat.zero_lt_succ _⟩
  get? name := by
    have hn' : ((declaring ms').scope global).names.Nodup := by
      rw [names_declaring] at hn ⊢
      exact ((h.map TypedDecl.name).append_left _).nodup_iff.1 hn
    by_cases hname : name ∈ ms.map TypedDecl.name
    · obtain ⟨m, hm, rfl⟩ := List.mem_map.1 hname
      obtain ⟨i, -, hi, hs⟩ := get?_declaring hn hm
      obtain ⟨i', -, hi', hs'⟩ := get?_declaring hn' (h.mem_iff.1 hm)
      rw [hi, hi']
      cases m with
      | type d ty => exact .some .type
      | procedure d ps ls =>
        obtain ⟨hs, heq⟩ := hs _ (.head _)
        obtain ⟨hs', heq'⟩ := hs' _ (.head _)
        obtain ⟨_, hΓ⟩ := hden.exists_denotes _ hm
        exact .some (.proc ⟨rfl, rfl, rfl, heq'.trans heq.symm, by rw [heq]; rfl,
          by rw [heq]; exact hΓ.nodup_names _ (.head _), hs, hs'⟩)
    · have hname' : name ∉ ms'.map TypedDecl.name := fun hc =>
        hname ((h.map TypedDecl.name).mem_iff.2 hc)
      rw [get?_declaring_of_not_mem hname, get?_declaring_of_not_mem hname']
      cases hp : (predefined.scope global).get? name with
      | none => exact .none
      | some e =>
        cases e with
        | type ty => exact .some .type
        | var v =>
          have hall : ∀ x ∈ (predefined.scope global).entries, x.2.var? = none := by decide
          cases hall _ (mem_of_lookup hp)
        | proc P =>
          obtain ⟨hs, hne, henc⟩ := localScope_predefined hp
          obtain ⟨hs₁, heq⟩ := scope_declaring_of_hasScope ms hs hne
          obtain ⟨hs₂, heq'⟩ := scope_declaring_of_hasScope ms' hs hne
          exact .some (.proc ⟨rfl, rfl, rfl, heq'.trans heq.symm, by rw [heq, henc],
            by rw [heq]; exact nested_predefined.nodup _, hs₁, hs₂⟩)

end SymbolTable

/-! ## What the first two phases accept -/

/-- A program is correct, where its declarations denote the given types: they are well formed, and
all bodies obey the rules. -/
structure Program.Correct (entry : String) (p : Program) (ms : List TypedDecl) : Prop where
  wellFormed : p.WellFormed entry
  decl : ms.map TypedDecl.decl = p.declarations
  denote : TypedDecl.AllDenote .primitive ms
  derivable : ∀ d ∈ TypedDecl.procedures ms, d.Derivable (declaring ms)

/-- The table has the entries of the declarations, and the slots of the bodies are filled. -/
structure Checked (ms : List TypedDecl) (q : Program) (t : SymbolTable) : Prop where
  ext : (declaring ms).Extends t
  same : List.Forall₂ ProcDecl.Same (TypedDecl.procedures ms) q.procedures
  slots : ∀ d ∈ q.procedures, d.SlotsExact (declaring ms)

theorem Decl.forall₂_procedures {ds ds' : List Decl} (h : List.Forall₂ Decl.Same ds ds') :
    List.Forall₂ ProcDecl.Same (ds.filterMap Decl.procedure?) (ds'.filterMap Decl.procedure?) := by
  induction h with
  | nil => exact .nil
  | cons hd _ ih =>
    cases hd with
    | type => exact ih
    | procedure hd => exact .cons hd ih

theorem Program.Correct.nodup_names {entry : String} {p : Program} {ms : List TypedDecl}
    (h : p.Correct entry ms) : ((declaring ms).scope global).names.Nodup := by
  have hn := h.wellFormed.distinct
  rw [← h.decl, List.map_map] at hn
  rw [names_declaring]
  exact hn

/-- The first two phases accept exactly the correct programs among the fresh ones. -/
theorem buildAndCheck_decides (o : Options) {p : Program} (h : p.isFresh = true) :
    (buildAndCheck o p).Decides (fun q t => ∃ ms, p.Correct o.entry ms ∧ Checked ms q t)
      fun _ _ => ∀ ms, ¬p.Correct o.entry ms := by
  have hent := (enterDeclarations_decides o.entry h).and_meets
    (enterDeclarations_meets (A := False) o.entry p (.inl h))
  unfold buildAndCheck
  refine hent.andThen (fun _ _ hno ms hms => hno hms.wellFormed) fun q t hq => ?_
  obtain ⟨⟨hH, hbodies⟩, hw, ms, hdecl, hden, rfl, hq⟩ := hq
  have hf : ∀ d ∈ q.procedures, Stmt.allFresh d.body = true := fun d hd =>
    (hbodies d hd).resolve_right id
  have hprocedures : q.procedures = TypedDecl.procedures ms := by
    rw [hq]
    rfl
  have hb := checkBodies_decides hH hf
  unfold Visit.Decides at hb ⊢
  dsimp only
  cases hv : (checkBodies (declaring ms) q).answer with
  | ok _ =>
    rw [hv] at hb
    obtain ⟨-, hall⟩ := hb
    have hsame := Decl.forall₂_procedures hall.same
    have hder : ∀ d ∈ q.procedures, d.Derivable (declaring ms) := hall.derivable
    rw [hprocedures] at hder
    exact ⟨ms, ⟨hw, hdecl, hden, hder⟩, hall.ext, hprocedures ▸ hsame, hall.slots⟩
  | error f =>
    rw [hv] at hb
    obtain ⟨-, hstop⟩ := hb
    intro ms' hms'
    obtain ⟨x, -, hx⟩ := hstop.due
    refine hx.not_derivable fun d hd => ?_
    cases hms'.denote.unique hden (hms'.decl.trans hdecl.symm)
    exact hms'.derivable d (hprocedures ▸ hd)

theorem Program.Correct.reordered {entry : String} {p p' : Program} {ms : List TypedDecl}
    (h : p.Correct entry ms) (hr : p.Reordered p') :
    ∃ ms', p'.Correct entry ms' ∧ ms.Perm ms' := by
  obtain ⟨ms', hdecl, hden, hp⟩ := hr.declarations.denote h.decl h.denote
  refine ⟨ms', ⟨hr.wellFormed h.wellFormed, hdecl, hden, fun d hd => ?_⟩, hp⟩
  exact (h.derivable d ((TypedDecl.procedures_perm hp).mem_iff.2 hd)).of_alike
    (declaring_alike hp h.nodup_names h.denote)

/-! ## The same procedures -/

section

variable {t t' : SymbolTable} {ms ms' : List TypedDecl} {q q' : Program}

theorem ProcDecl.Same.name_eq {d d' : ProcDecl} (h : d.Same d') : d'.name = d.name := by
  have hn := congrArg ProcDecl.name h.1
  exact hn

/-- Procedures that differ in slots only are equal if the slots hold the derived types. -/
theorem ProcDecl.Same.eq (ha : t.Alike t') {d d' : ProcDecl} (hs : d.Same d')
    (h : d.SlotsExact t) (h' : d'.SlotsExact t') : d = d' := by
  have hname := hs.name_eq
  obtain ⟨hhead, hbody⟩ := hs
  obtain ⟨P, hP, hx⟩ := h
  obtain ⟨P', hP', hx'⟩ := h'
  obtain ⟨Q, hQ, halike⟩ := ha.exists_procedure? hP
  rw [hname, hQ, Option.some.injEq] at hP'
  subst hP'
  have heq := hbody.eq (ha.within halike) hx hx'
  cases d
  cases d'
  simp only [ProcDecl.head, ProcDecl.mk.injEq] at hhead heq ⊢
  exact ⟨hhead.1.symm, hhead.2.1.symm, hhead.2.2.1.symm, hhead.2.2.2.1.symm, heq⟩

theorem ProcDecl.eq_of_forall₂_same (ha : t.Alike t') : ∀ {l m m' : List ProcDecl},
    List.Forall₂ ProcDecl.Same l m → List.Forall₂ ProcDecl.Same l m' →
    (∀ d ∈ m, d.SlotsExact t) → (∀ d ∈ m', d.SlotsExact t') → m = m'
  | _, _, _, .nil, .nil, _, _ => rfl
  | _, _, _, .cons h hs, .cons h' hs', hm, hm' => by
    obtain ⟨hd, hm⟩ := List.forall_mem_cons.1 hm
    obtain ⟨hd', hm'⟩ := List.forall_mem_cons.1 hm'
    rw [(h.euclid h').eq ha hd hd', eq_of_forall₂_same ha hs hs' hm hm']

/-- The check makes the same procedures of the same declarations in two orders. -/
theorem Checked.procedures_perm (h : Checked ms q t) (h' : Checked ms' q' t') (hp : ms.Perm ms')
    (ha : (declaring ms).Alike (declaring ms')) : q.procedures.Perm q'.procedures := by
  obtain ⟨l, hl, hlq⟩ := List.perm_comp_forall₂ (TypedDecl.procedures_perm hp).symm h.same
  have heq := ProcDecl.eq_of_forall₂_same ha hl h'.same
    (fun d hd => h.slots d (hlq.mem_iff.1 hd)) h'.slots
  exact (heq ▸ hlq).symm

/-- No local scope of one of the given procedures is that of a procedure of another name. -/
def SymbolTable.Separate (t : SymbolTable) (ds : List ProcDecl) : Prop :=
  ∀ d ∈ ds, ∀ Q, t.procedure? d.name = some Q →
    ∀ name, name ∉ ds.map (·.name) → ∀ P, t.procedure? name = some P →
      P.localScope ≠ Q.localScope

theorem Checked.procedure?_eq (h : Checked ms q t) (name : String) :
    t.procedure? name = (declaring ms).procedure? name := by
  have hg : (declaring ms).HasScope global := Nat.zero_lt_succ _
  rw [procedure?, h.ext.scope_eq hg, procedure?]

theorem Checked.map_name (h : Checked ms q t) :
    q.procedures.map (·.name) = (TypedDecl.procedures ms).map (·.name) := by
  have hs := h.same
  generalize TypedDecl.procedures ms = l at hs ⊢
  generalize q.procedures = l' at hs ⊢
  induction hs with
  | nil => rfl
  | cons hd _ ih => exact congrArg₂ (· :: ·) hd.name_eq ih

theorem Checked.separate {entry : String} {p : Program} (h : Checked ms q t)
    (hc : p.Correct entry ms) : t.Separate q.procedures := by
  intro d hd Q hQ name hname P hP
  rw [h.procedure?_eq, procedure?_eq_some_iff] at hQ hP
  rw [h.map_name] at hname
  have hmem : ∀ q ps ls, TypedDecl.procedure q ps ls ∈ ms →
      q.name ∈ (TypedDecl.procedures ms).map (·.name) := fun q ps ls hm =>
    List.mem_map.2 ⟨_, TypedDecl.mem_procedures_iff.2 ⟨q, ps, ls, hm, rfl⟩, rfl⟩
  have hundeclared : name ∉ ms.map TypedDecl.name := fun hm => by
    obtain ⟨m, hmem', rfl⟩ := List.mem_map.1 hm
    obtain ⟨i, -, hi, -⟩ := get?_declaring hc.nodup_names hmem'
    rw [hP, Option.some.injEq] at hi
    cases m with
    | type d ty => cases hi
    | procedure q ps ls => exact hname (hmem q ps ls hmem')
  rw [get?_declaring_of_not_mem hundeclared] at hP
  have hdm : d.name ∈ (TypedDecl.procedures ms).map (·.name) := by
    rw [← h.map_name]
    exact List.mem_map_of_mem hd
  obtain ⟨d', hd', hdn⟩ := List.mem_map.1 hdm
  obtain ⟨q, ps, ls, hm, rfl⟩ := TypedDecl.mem_procedures_iff.1 hd'
  obtain ⟨i, hle, hi, -⟩ := get?_declaring hc.nodup_names hm
  have hname : (TypedDecl.procedure q ps ls).name = d.name := hdn
  rw [hname, hQ, Option.some.injEq] at hi
  cases hi
  intro hs
  have hlt : P.localScope.index < predefined.scopes.length := (localScope_predefined hP).1
  rw [hs] at hlt
  exact Nat.not_lt.2 hle hlt

end

/-- The first two phases accept a program exactly if they accept it in another order. -/
theorem accepted_iff_of_reordered (o : Options) {p p' : Program} (h : p.isFresh = true)
    (hr : p.Reordered p') : (∃ t, (buildAndCheck o p).answer = .ok t) ↔
      ∃ t, (buildAndCheck o p').answer = .ok t := by
  have himp : ∀ {p p' : Program}, p.isFresh = true → p.Reordered p' →
      (∃ t, (buildAndCheck o p).answer = .ok t) → ∃ t, (buildAndCheck o p').answer = .ok t := by
    rintro p p' hp hr ⟨t, ht⟩
    obtain ⟨ms, hms, -⟩ := (buildAndCheck_decides o hp).of_ok ht
    obtain ⟨ms', hms', -⟩ := hms.reordered hr
    cases ht' : (buildAndCheck o p').answer with
    | ok t' => exact ⟨t', rfl⟩
    | error f => exact absurd hms' ((buildAndCheck_decides o (hr.isFresh hp)).of_error ht' ms')
  exact ⟨himp h hr, himp (hr.isFresh h) hr.symm⟩

/-- What the first two phases make of an accepted program, they make of it in another order: the
same procedures and a table alike. -/
theorem buildAndCheck_reordered (o : Options) {p p' : Program} {t t' : SymbolTable}
    (h : p.isFresh = true) (hr : p.Reordered p') (ht : (buildAndCheck o p).answer = .ok t)
    (ht' : (buildAndCheck o p').answer = .ok t') : t.Alike t' ∧
      (buildAndCheck o p).tree.procedures.Perm (buildAndCheck o p').tree.procedures ∧
      t.Separate (buildAndCheck o p).tree.procedures ∧
      t'.Separate (buildAndCheck o p').tree.procedures := by
  obtain ⟨ms, hms, hchecked⟩ := (buildAndCheck_decides o h).of_ok ht
  obtain ⟨ms', hms', hchecked'⟩ := (buildAndCheck_decides o (hr.isFresh h)).of_ok ht'
  obtain ⟨ms₁, hms₁, hp⟩ := hms.reordered hr
  cases hms'.denote.unique hms₁.denote (hms'.decl.trans hms₁.decl.symm)
  have ha := declaring_alike hp hms.nodup_names hms.denote
  exact ⟨ha.of_extends hchecked.ext hchecked'.ext, hchecked.procedures_perm hchecked' hp ha,
    hchecked.separate hms, hchecked'.separate hms'⟩

end Spl
