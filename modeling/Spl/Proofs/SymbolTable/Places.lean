import Spl.Proofs.Typing.Judgement

/-!
# Tables in which places are written

Allocation writes offsets and frame layouts into a table and changes nothing else. So the table
declares what it declared before, and bodies have the types that they had.

* `SymbolTable.WritesPlaces`: two tables differ in places only, and only at given entries.
* `SymbolTable.WritesPlaces.typeEnv_eq`: typing does not see places.
* `SymbolTable.WritesPlaces.declares`, `SymbolTable.WritesPlaces.holds`: what a table declares it
  still declares.
* `SymbolTable.writesPlaces_updateProcedure`, `SymbolTable.writesPlaces_updateLocal`: the writes.
-/

namespace Spl

/-- A variable without its place. -/
def Variable.outline (v : Variable) : Variable := { v with offset := none }

/-- A procedure without the places of its parameters and without its frame. -/
def Procedure.outline (p : Procedure) : Procedure :=
  { p with parameters := p.parameters.map Variable.outline, layout := {} }

/-- An entry without places. -/
def Entry.outline : Entry → Entry
  | .type t => .type t
  | .var v => .var v.outline
  | .proc p => .proc p.outline

namespace Entry

/-- The view of a variable does not depend on its place. -/
theorem view_outline (o : Option Entry) :
    ((o.map outline).bind var?).map Variable.view = (o.bind var?).map Variable.view := by
  cases o with
  | none => rfl
  | some e => cases e <;> rfl

/-- Nor do the views of the parameters of a procedure. -/
theorem views_outline (o : Option Entry) :
    ((o.map outline).bind proc?).map (·.parameters.map Variable.view) =
      (o.bind proc?).map (·.parameters.map Variable.view) := by
  cases o with
  | none => rfl
  | some e =>
    cases e with
    | type _ => rfl
    | var _ => rfl
    | proc p =>
      show some ((p.parameters.map Variable.outline).map Variable.view) = _
      rw [List.map_map]
      rfl

end Entry

theorem Procedure.localScope_eq_of_outline {P P' : Procedure} (h : P'.outline = P.outline) :
    P'.localScope = P.localScope := by
  have hs := congrArg Procedure.localScope h
  exact hs

theorem Procedure.isBuiltin_eq_of_outline {P P' : Procedure} (h : P'.outline = P.outline) :
    P'.isBuiltin = P.isBuiltin := by
  have hb := congrArg Procedure.isBuiltin h
  exact hb

theorem Procedure.views_eq_of_outline {P P' : Procedure} (h : P'.outline = P.outline) :
    P'.parameters.map Variable.view = P.parameters.map Variable.view :=
  Option.some.inj <|
    calc some (P'.parameters.map Variable.view)
      _ = _ := (Entry.views_outline (some (.proc P'))).symm
      _ = _ := by rw [Option.map_some, Entry.outline, h]; rfl
      _ = some (P.parameters.map Variable.view) := Entry.views_outline (some (.proc P))

namespace Variable

variable {v w : Variable} {b : ParamDecl}

theorem outline_eq_iff : w.outline = v.outline ↔ w.view = v.view := by
  cases v; cases w
  simp [outline, view]

theorem Realizes.of_view (h : v.Realizes b) (hw : w.view = v.view) : w.Realizes b := by
  simp only [view, Prod.mk.injEq] at hw
  exact ⟨by rw [hw.2]; exact h.1, by rw [hw.1]; exact h.2, by rw [hw.1, hw.2]; exact h.3⟩

end Variable

namespace SymbolTable

/-- A relation of two lists goes over to a list with the same views. -/
theorem forall₂_of_map_eq {α β γ : Type} {f : β → γ} {R R' : α → β → Prop} :
    ∀ {l : List α} {m m' : List β}, m'.map f = m.map f → List.Forall₂ R l m →
      (∀ a b b', f b' = f b → R a b → R' a b') → List.Forall₂ R' l m'
  | [], [], [], _, _, _ => .nil
  | a :: l, b :: m, b' :: m', hm, h, hR => by
    simp only [List.map_cons, List.cons.injEq] at hm
    rw [List.forall₂_cons] at h
    exact .cons (hR a b b' hm.1 h.1) (forall₂_of_map_eq hm.2 h.2 hR)

/-- The second table differs from the first one in places only, and only at the entries in `S`. -/
structure WritesPlaces (S : ScopeId → String → Prop) (t t' : SymbolTable) : Prop where
  hasScope : ∀ id, t'.HasScope id ↔ t.HasScope id
  enclosing : ∀ id, (t'.scope id).enclosing = (t.scope id).enclosing
  outline : ∀ id name, ((t'.scope id).get? name).map Entry.outline =
    ((t.scope id).get? name).map Entry.outline
  others : ∀ id name, ¬S id name → (t'.scope id).get? name = (t.scope id).get? name

variable {S S' : ScopeId → String → Prop} {t t' t'' : SymbolTable} {id scope : ScopeId}
  {name : String} {d : ProcDecl} {P : Procedure} {ds : List ProcDecl} {v : Variable}

namespace WritesPlaces

theorem refl (t : SymbolTable) : t.WritesPlaces S t :=
  ⟨fun _ => Iff.rfl, fun _ => rfl, fun _ _ => rfl, fun _ _ _ => rfl⟩

theorem trans (h : t.WritesPlaces S t') (h' : t'.WritesPlaces S t'') : t.WritesPlaces S t'' where
  hasScope id := (h'.hasScope id).trans (h.hasScope id)
  enclosing id := (h'.enclosing id).trans (h.enclosing id)
  outline id name := (h'.outline id name).trans (h.outline id name)
  others id name hn := (h'.others id name hn).trans (h.others id name hn)

theorem mono (h : t.WritesPlaces S t') (hS : ∀ id name, S id name → S' id name) :
    t.WritesPlaces S' t' :=
  { h with others := fun id name hn => h.others id name fun hs => hn (hS id name hs) }

/-- An entry keeps its kind and its type. -/
theorem get? (h : t.WritesPlaces S t') {e : Entry} (he : (t.scope id).get? name = some e) :
    ∃ e', (t'.scope id).get? name = some e' ∧ e'.outline = e.outline := by
  have ho := h.outline id name
  rw [he, Option.map_some, Option.map_eq_some_iff] at ho
  exact ho

/-- An entry had the kind and the type that it has. -/
theorem get?_back (h : t.WritesPlaces S t') {e : Entry}
    (he : (t'.scope id).get? name = some e) :
    ∃ e', (t.scope id).get? name = some e' ∧ e'.outline = e.outline := by
  have ho := (h.outline id name).symm
  rw [he, Option.map_some, Option.map_eq_some_iff] at ho
  exact ho

theorem local? (h : t.WritesPlaces S t') (hv : t.local? id name = some v) :
    ∃ v', t'.local? id name = some v' ∧ v'.view = v.view := by
  obtain ⟨e, he, ho⟩ := h.get? (local?_eq_some_iff.1 hv)
  cases e with
  | var v' => exact ⟨v', local?_eq_some_iff.2 he, Variable.outline_eq_iff.1 (Entry.var.inj ho)⟩
  | type _ => cases ho
  | proc _ => cases ho

theorem procedure? (h : t.WritesPlaces S t') (hP : t.procedure? name = some P) :
    ∃ P', t'.procedure? name = some P' ∧ P'.outline = P.outline := by
  obtain ⟨e, he, ho⟩ := h.get? (procedure?_eq_some_iff.1 hP)
  cases e with
  | proc P' => exact ⟨P', procedure?_eq_some_iff.2 he, Entry.proc.inj ho⟩
  | type _ => cases ho
  | var _ => cases ho

theorem local?_of_not (h : t.WritesPlaces S t') (hn : ¬S id name) :
    t'.local? id name = t.local? id name := by
  rw [SymbolTable.local?, h.others id name hn, SymbolTable.local?]

theorem procedure?_of_not (h : t.WritesPlaces S t') (hn : ¬S global name) :
    t'.procedure? name = t.procedure? name := by
  rw [SymbolTable.procedure?, h.others global name hn, SymbolTable.procedure?]

end WritesPlaces

/-! ## What does not change -/

/-- A name stands for the same but for places. -/
theorem WritesPlaces.find?_outline (h : t.WritesPlaces S t') (id : ScopeId) (name : String) :
    (t'.find? id name).map Entry.outline = (t.find? id name).map Entry.outline := by
  simp only [find?, chain, h.enclosing, List.map_findSome?]
  congr 1
  funext s
  exact h.outline s name

/-- Typing does not see places. -/
theorem WritesPlaces.typeEnv_eq (h : t.WritesPlaces S t') (id : ScopeId) :
    t'.typeEnv id = t.typeEnv id := by
  have hvar : ∀ name, ((t'.find? id name).bind Entry.var?).map Variable.view =
      ((t.find? id name).bind Entry.var?).map Variable.view := fun name => by
    rw [← Entry.view_outline, h.find?_outline, Entry.view_outline]
  have hsig : ∀ name,
      ((t'.find? id name).bind Entry.proc?).map (·.parameters.map Variable.view) =
        ((t.find? id name).bind Entry.proc?).map (·.parameters.map Variable.view) := fun name => by
    rw [← Entry.views_outline, h.find?_outline, Entry.views_outline]
  simp only [typeEnv, hvar, hsig]

/-- What a table declares it still declares. -/
theorem WritesPlaces.declares (h : t.WritesPlaces S t') (hP : t.Declares d P) :
    ∃ P', t'.Declares d P' ∧ P'.outline = P.outline := by
  obtain ⟨P', hP', ho⟩ := h.procedure? hP.procedure
  have hs : P'.localScope = P.localScope := Procedure.localScope_eq_of_outline ho
  refine ⟨P', ?_, ho⟩
  refine
    { procedure := hP'
      hasScope := by rw [hs]; exact (h.hasScope _).2 hP.hasScope
      ne_global := by rw [hs]; exact hP.ne_global
      enclosing := by rw [hs, h.enclosing]; exact hP.enclosing
      nodup := hP.nodup
      parameters := ?_
      locals := fun b hb => ?_
      only := fun name e he => ?_
      room := hP.room }
  · rw [hs]
    have hviews : P'.parameters.map Variable.view = P.parameters.map Variable.view :=
      Procedure.views_eq_of_outline ho
    refine forall₂_of_map_eq hviews hP.parameters fun b v v' hv ⟨hr, w, hw, hwv⟩ => ?_
    obtain ⟨w', hw', hwv'⟩ := h.local? hw
    exact ⟨hr.of_view hv, w', hw', by rw [hwv', hwv, hv]⟩
  · obtain ⟨v, hv, href, hslot⟩ := hP.locals b hb
    obtain ⟨v', hv', hvv⟩ := h.local? hv
    simp only [Variable.view, Prod.mk.injEq] at hvv
    exact ⟨v', by rw [hs]; exact hv', by rw [hvv.2, href], by rw [hvv.1, hslot]⟩
  · rw [hs] at he
    obtain ⟨e', he', ho'⟩ := h.get?_back he
    obtain ⟨hmem, v, rfl, hfit⟩ := hP.only name e' he'
    obtain ⟨v', hv', hvv⟩ := h.local? (local?_eq_some_iff.2 he')
    rw [local?_eq_some_iff, he, Option.some.injEq] at hv'
    simp only [Variable.view, Prod.mk.injEq] at hvv
    exact ⟨hmem, v', hv', by rw [hvv.1]; exact hfit⟩

/-- A procedure that is declared after the write was declared before it. -/
theorem WritesPlaces.declares_back (h : t.WritesPlaces S t') (hH : t.Holds ds) (hd : d ∈ ds)
    {P' : Procedure} (hP' : t'.Declares d P') : ∃ P, t.Declares d P ∧ P'.outline = P.outline := by
  obtain ⟨P, hP⟩ := hH.declares d hd
  obtain ⟨Q, hQ, ho⟩ := h.declares hP
  exact ⟨P, hP, by rw [hP'.unique hQ, ho]⟩

/-- A table that holds the procedures of a program still does, unless a builtin is moved. -/
theorem WritesPlaces.holds (h : t.WritesPlaces S t') (hb : ∀ b ∈ builtins, ¬S global b.name)
    (hH : t.Holds ds) : t'.Holds ds where
  hasScope := (h.hasScope _).2 hH.hasScope
  enclosing := by rw [h.enclosing]; exact hH.enclosing
  nodup := hH.nodup
  declares d hd := by
    obtain ⟨P, hP⟩ := hH.declares d hd
    obtain ⟨P', hP', -⟩ := h.declares hP
    exact ⟨P', hP'⟩
  separate d hd d' hd' P P' hP hP' heq := by
    obtain ⟨Q, hQ, ho⟩ := h.declares_back hH hd hP
    obtain ⟨Q', hQ', ho'⟩ := h.declares_back hH hd' hP'
    have hs : P.localScope = Q.localScope := Procedure.localScope_eq_of_outline ho
    have hs' : P'.localScope = Q'.localScope := Procedure.localScope_eq_of_outline ho'
    exact hH.separate d hd d' hd' Q Q' hQ hQ' (by rw [← hs, ← hs', heq])
  builtins b hbm := by
    obtain ⟨P, hP, hps⟩ := hH.builtins b hbm
    exact ⟨P, by rw [h.procedure?_of_not (hb b hbm)]; exact hP, hps⟩
  notBuiltin := hH.notBuiltin
  only name e he := by
    obtain ⟨e', he', ho⟩ := h.get?_back he
    rcases hH.only name e' he' with ⟨ty, rfl, hfit⟩ | ⟨⟨Q, rfl⟩, hn⟩
    · cases e with
      | type ty' =>
        cases ho
        exact .inl ⟨ty, rfl, hfit⟩
      | var _ => cases ho
      | proc _ => cases ho
    · cases e with
      | proc Q' => exact .inr ⟨⟨Q', rfl⟩, hn⟩
      | type _ => cases ho
      | var _ => cases ho

/-! ## The writes -/

/-- A change in place is a change of one entry. -/
theorem get?_modifyScope_update (hs : t.HasScope id) (f : Entry → Entry) (scope : ScopeId)
    (n : String) :
    ((t.modifyScope id (·.update name f)).scope scope).get? n =
      if scope = id ∧ n = name then ((t.scope scope).get? n).map f else (t.scope scope).get? n := by
  rw [scope_modifyScope hs]
  by_cases h : scope = id
  · rw [if_pos h, Scope.get?_update]
    by_cases hn : n = name
    · rw [if_pos hn, if_pos ⟨h, hn⟩]
    · rw [if_neg hn, if_neg fun hc => hn hc.2]
  · rw [if_neg h, if_neg fun hc => h hc.1]

theorem writesPlaces_modifyScope (hs : t.HasScope id) (f : Entry → Entry)
    (hf : ∀ e, (t.scope id).get? name = some e → (f e).outline = e.outline) :
    t.WritesPlaces (fun s n => s = id ∧ n = name) (t.modifyScope id (·.update name f)) where
  hasScope _ := hasScope_modifyScope_iff
  enclosing s := by
    rw [scope_modifyScope hs]
    split <;> rfl
  outline s n := by
    rw [get?_modifyScope_update hs]
    split
    · next h =>
      obtain ⟨rfl, rfl⟩ := h
      cases he : (t.scope s).get? n with
      | none => rfl
      | some e => exact congrArg some (hf e he)
    · rfl
  others s n h := by rw [get?_modifyScope_update hs, if_neg h]

/-- Changing a procedure that is declared is changing the global scope. -/
theorem updateProcedure_eq (henc : (t.scope global).enclosing = [])
    (hP : t.procedure? name = some P) (f : Procedure → Procedure) :
    t.updateProcedure name f = t.modifyScope global (·.update name (·.mapProcedure f)) := by
  have hd : (t.scope global).declares name = true := by
    rw [Scope.declares, procedure?_eq_some_iff.1 hP]
    rfl
  have hg : t.declaring? global name = some global := by
    rw [declaring?, chain, henc, List.find?_cons, hd]
  rw [updateProcedure, update, hg]

/-- Writing into a procedure writes places if its parameters keep their types. -/
theorem writesPlaces_updateProcedure (hg : t.HasScope global)
    (henc : (t.scope global).enclosing = []) (hP : t.procedure? name = some P)
    {f : Procedure → Procedure} (hf : (f P).outline = P.outline) :
    t.WritesPlaces (fun s n => s = global ∧ n = name) (t.updateProcedure name f) ∧
      (t.updateProcedure name f).procedure? name = some (f P) := by
  have he := procedure?_eq_some_iff.1 hP
  rw [updateProcedure_eq henc hP]
  refine ⟨writesPlaces_modifyScope hg _ fun e he' => ?_, ?_⟩
  · rw [he] at he'
    cases he'
    exact congrArg Entry.proc hf
  · rw [procedure?_eq_some_iff, get?_modifyScope_update hg, if_pos ⟨rfl, rfl⟩, he]
    rfl

/-- Writing the place of a variable. -/
theorem writesPlaces_updateLocal (hs : t.HasScope id) (hv : t.local? id name = some v)
    (o : Option Word) :
    t.WritesPlaces (fun s n => s = id ∧ n = name) (t.updateLocal id name ({ · with offset := o })) ∧
      (t.updateLocal id name ({ · with offset := o })).local? id name =
        some { v with offset := o } := by
  have he := local?_eq_some_iff.1 hv
  refine ⟨writesPlaces_modifyScope hs _ fun e he' => ?_, ?_⟩
  · rw [he] at he'
    cases he'
    rfl
  · rw [local?_eq_some_iff, updateLocal, get?_modifyScope_update hs, if_pos ⟨rfl, rfl⟩, he]
    rfl

end SymbolTable

end Spl
