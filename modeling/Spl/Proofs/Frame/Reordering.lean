import Spl.Proofs.Frame.Allocation
import Spl.Proofs.Typing.Reordering

/-!
# Frames of procedures in another order

The allocation visits the procedures of a program one by one. What it writes for a procedure depends
on the declaration of the procedure alone, and goes to its own entries. So from tables that are
alike it makes tables that are alike, whatever the order of the procedures.

* `EditsInPlace`: steps that keep the names of all scopes in their order.
* `AllocatedFrom`: what a successful allocation has written, and what it has left alone.
* `ProcDecl.VariablesLie.offset_eq`, `Placed.get?_eq`: the places of a procedure follow from its
  declaration.
* `allocate_reordered`: the allocation of a program in two orders.
-/

namespace Spl

open SymbolTable

/-! ## Names -/

/-- If the step succeeds, all scopes have the names that they had, in the same order. -/
def EditsInPlace {α : Type} (x : Allocation α) : Prop :=
  ∀ t, Ends (fun _ => True) (fun _ u => ∀ id, (u.scope id).names = (t.scope id).names) x t

namespace EditsInPlace

variable {α β : Type} {x : Allocation α}

theorem pure {a : α} : EditsInPlace (Pure.pure a) := fun _ _ => rfl

theorem throw {f : Fault} : EditsInPlace (MonadExcept.throw f : Allocation α) := fun _ => trivial

theorem bind {f : α → Allocation β} (h : EditsInPlace x) (hf : ∀ a, EditsInPlace (f a)) :
    EditsInPlace (x >>= f) := fun t =>
  (h t).bind fun a u hu => (hf a u).mono fun _ _ hu' id => (hu' id).trans (hu id)

theorem get_bind {f : SymbolTable → Allocation β} (h : ∀ t, EditsInPlace (f t)) :
    EditsInPlace (get >>= f) := fun t => h t t

theorem lift (z : Except Fault α) : EditsInPlace (liftM z : Allocation α) := by
  cases z with
  | ok a => exact pure
  | error f => exact throw

end EditsInPlace

section

variable {t : SymbolTable}

theorem names_modifyScope_update (id : ScopeId) (name : String) (f : Entry → Entry) (s : ScopeId) :
    ((t.modifyScope id (·.update name f)).scope s).names = (t.scope s).names := by
  by_cases hs : t.HasScope id
  · rw [scope_modifyScope hs]
    split
    · exact Scope.map_fst_update _ name f
    · rfl
  · have hnone : t.scopes[id.index]? = none := List.getElem?_eq_none (Nat.le_of_not_lt hs)
    rw [modifyScope_eq_self]
    rw [scope, hnone]
    rfl

theorem names_update (id : ScopeId) (name : String) (f : Entry → Entry) (s : ScopeId) :
    ((t.update id name f).scope s).names = (t.scope s).names := by
  unfold update
  cases t.declaring? id name with
  | none => rfl
  | some r => exact names_modifyScope_update r name f s

end

theorem placeSignature_editsInPlace (name : String) (P : Procedure) :
    EditsInPlace (placeSignature name P) := by
  unfold placeSignature
  exact .bind (fun _ => names_update _ _ _) fun _ => .bind (.lift _) fun _ => .pure

theorem copyOffsets_editsInPlace (scope : ScopeId) : ∀ ps : List (ParamDecl × Variable),
    EditsInPlace (copyOffsets scope ps)
  | [] => .pure
  | (d, v) :: ps => by
    unfold copyOffsets
    refine .get_bind fun t => ?_
    dsimp only
    split
    · exact fun _ => trivial
    · exact .bind (fun _ => names_modifyScope_update _ _ _)
        fun _ => copyOffsets_editsInPlace scope ps

theorem placeLocals_editsInPlace (scope : ScopeId) : ∀ (ds : List (Binding TypeExpr))
    (before : Word), EditsInPlace (placeLocals scope before ds)
  | [], _ => .pure
  | d :: ds, before => by
    unfold placeLocals
    refine .get_bind fun t => ?_
    cases t.local? scope d.name with
    | none => exact .throw
    | some v =>
      refine .bind (.lift _) fun _ => .bind (.lift _) fun size => .bind (.lift _) fun _ => ?_
      exact .bind (fun _ => names_modifyScope_update _ _ _) fun _ =>
        placeLocals_editsInPlace scope ds size

theorem allocateProcedure_editsInPlace (leaves : Bool) (d : ProcDecl) :
    EditsInPlace (allocateProcedure leaves d) := by
  unfold allocateProcedure
  refine .get_bind fun t => ?_
  cases t.procedure? d.name with
  | none => exact .throw
  | some P =>
    refine .bind (placeSignature_editsInPlace d.name P) fun _ => ?_
    refine .bind (copyOffsets_editsInPlace P.localScope _) fun _ => ?_
    refine .bind (placeLocals_editsInPlace P.localScope d.locals 0) fun _ => .get_bind fun _ => ?_
    exact .bind (.lift _) fun _ _ => names_update _ _ _

/-- Allocation keeps the names of all scopes in their order. -/
theorem allocate_editsInPlace (leaves : Bool) (p : Program) :
    EditsInPlace (allocate leaves p) := by
  unfold allocate
  induction p.procedures with
  | nil => exact .pure
  | cons d ds ih => exact .bind (allocateProcedure_editsInPlace leaves d) fun _ => ih

/-! ## Places -/

/-- Scopes at the same place, with the same names in the same order, which stand for the same. -/
theorem Scope.eq_of_get? {s s' : Scope} (henc : s'.enclosing = s.enclosing)
    (hn : s'.names = s.names) (hd : s.names.Nodup) (h : ∀ name, s'.get? name = s.get? name) :
    s' = s := by
  have hentries : s'.entries = s.entries := by
    refine List.ext_getElem? fun i => ?_
    have hi := congrArg (·[i]?) hn
    simp only [names, List.getElem?_map] at hi
    cases hx : s.entries[i]? with
    | none =>
      rw [hx, Option.map_none, Option.map_eq_none_iff] at hi
      exact hi
    | some x =>
      rw [hx, Option.map_some, Option.map_eq_some_iff] at hi
      obtain ⟨y, hy, hxy⟩ := hi
      have hgx : s.get? x.1 = some x.2 := get?_of_mem hd (List.mem_of_getElem? hx)
      have hgy : s'.get? y.1 = some y.2 := get?_of_mem (hn ▸ hd) (List.mem_of_getElem? hy)
      rw [hxy, h, hgx, Option.some.injEq] at hgy
      rw [hy, Prod.ext hxy hgy.symm]
  cases s
  cases s'
  rw [Scope.mk.injEq]
  exact ⟨henc, hentries⟩

theorem Variable.eq_of_outline {v w : Variable} (h : v.outline = w.outline)
    (ho : v.offset = w.offset) : v = w := by
  cases v
  cases w
  simp only [outline, Variable.mk.injEq, and_true] at h ho ⊢
  exact ⟨h.1, h.2, ho⟩

section

variable {leaves : Bool} {t t' u u' : SymbolTable} {d : ProcDecl} {P P' Q Q' : Procedure}
  {S S' : ScopeId → String → Prop} {q q' : Program}

/-- Two words with the same value are the same offset. -/
theorem offset_eq {o o' : Option Word} {i : Int} (h : ∃ w, o = some w ∧ w.toInt = i)
    (h' : ∃ w, o' = some w ∧ w.toInt = i) : o' = o := by
  obtain ⟨w, rfl, hw⟩ := h
  obtain ⟨w', rfl, hw'⟩ := h'
  rw [Int32.toInt_inj.1 (hw'.trans hw.symm)]

/-- The parameters of a placed procedure, as callers see them, follow from their types. -/
theorem Placed.signature_eq (hp : Placed leaves u d P) (hp' : Placed leaves u' d P')
    (h : P'.parameters.map Variable.outline = P.parameters.map Variable.outline) :
    P'.parameters = P.parameters := by
  refine List.ext_getElem? fun i => ?_
  have hi := congrArg (·[i]?) h
  simp only [List.getElem?_map] at hi
  cases hv : P.parameters[i]? with
  | none =>
    rw [hv, Option.map_none, Option.map_eq_none_iff] at hi
    exact hi
  | some v =>
    rw [hv, Option.map_some, Option.map_eq_some_iff] at hi
    obtain ⟨v', hv', ho⟩ := hi
    rw [hv', Variable.eq_of_outline ho (offset_eq (hp.signature i v hv) (hp'.signature i v' hv'))]

/-- The variables of a procedure lie where its declaration says. -/
structure ProcDecl.VariablesLie (d : ProcDecl) (look : String → Option Variable) : Prop where
  parameters : ∀ (i : Nat) b, d.parameters[i]? = some b →
    ∃ v w, look b.name = some v ∧ v.offset = some w ∧ w.toInt = 4 * (i : Int)
  locals : ∀ (i : Nat) b, d.locals[i]? = some b → ∃ v w, look b.name = some v ∧
    v.offset = some w ∧ w.toInt = -(ProcDecl.bytesOf (d.locals.take (i + 1)) : Int)

theorem Placed.variablesLie (hp : Placed leaves u d P) : d.VariablesLie (u.local? P.localScope) :=
  ⟨hp.parameters, hp.locals⟩

/-- The offset of a variable follows from the declaration of its procedure. -/
theorem ProcDecl.VariablesLie.offset_eq {f f' : String → Option Variable} (h : d.VariablesLie f)
    (h' : d.VariablesLie f') {name : String} (hn : name ∈ d.names) :
    ∃ v v', f name = some v ∧ f' name = some v' ∧ v'.offset = v.offset := by
  rcases List.mem_append.1 hn with hn | hn
  · obtain ⟨b, hb, rfl⟩ := List.mem_map.1 hn
    obtain ⟨i, hi⟩ := List.mem_iff_getElem?.1 hb
    obtain ⟨v, w, hv, hw⟩ := h.parameters i b hi
    obtain ⟨v', w', hv', hw'⟩ := h'.parameters i b hi
    exact ⟨v, v', hv, hv', Spl.offset_eq ⟨w, hw⟩ ⟨w', hw'⟩⟩
  · obtain ⟨b, hb, rfl⟩ := List.mem_map.1 hn
    obtain ⟨i, hi⟩ := List.mem_iff_getElem?.1 hb
    obtain ⟨v, w, hv, hw⟩ := h.locals i b hi
    obtain ⟨v', w', hv', hw'⟩ := h'.locals i b hi
    exact ⟨v, v', hv, hv', Spl.offset_eq ⟨w, hw⟩ ⟨w', hw'⟩⟩

/-- A variable of the same type and at the same place. -/
theorem Placed.get?_eq (hp : Placed leaves u d P) (hp' : Placed leaves u' d P')
    (hP : u.Declares d P)
    (h : ∀ name, ((u'.scope P'.localScope).get? name).map Entry.outline =
      ((u.scope P.localScope).get? name).map Entry.outline) (name : String) :
    (u'.scope P'.localScope).get? name = (u.scope P.localScope).get? name := by
  have hname := h name
  cases he : (u.scope P.localScope).get? name with
  | none =>
    rw [he, Option.map_none, Option.map_eq_none_iff] at hname
    exact hname
  | some e =>
    obtain ⟨hmem, -⟩ := hP.only name e he
    obtain ⟨v, v', hv, hv', ho⟩ := hp.variablesLie.offset_eq hp'.variablesLie hmem
    rw [local?_eq_some_iff] at hv hv'
    rw [hv, hv', Option.map_some, Option.map_some, Option.some.injEq] at hname
    rw [he, Option.some.injEq] at hv
    rw [hv', hv, Variable.eq_of_outline (Entry.var.inj hname) ho]

/-- A procedure that two tables hold alike is placed alike. -/
theorem Procedure.Alike.of_placed (h : Q.Alike t t' Q') (hw : t.WritesPlaces S u)
    (hw' : t'.WritesPlaces S' u') (hn : ∀ id, (u.scope id).names = (t.scope id).names)
    (hn' : ∀ id, (u'.scope id).names = (t'.scope id).names) (ho : P.outline = Q.outline)
    (ho' : P'.outline = Q'.outline) (hP : u.Declares d P) (hP' : u'.Declares d P')
    (hp : Placed leaves u d P) (hp' : Placed leaves u' d P') : P.Alike u u' P' := by
  have hs : P.localScope = Q.localScope := Procedure.localScope_eq_of_outline ho
  have hs' : P'.localScope = Q'.localScope := Procedure.localScope_eq_of_outline ho'
  have hparameters : P'.parameters.map Variable.outline = P.parameters.map Variable.outline :=
    calc P'.parameters.map Variable.outline
      _ = Q'.parameters.map Variable.outline := congrArg Procedure.parameters ho'
      _ = Q.parameters.map Variable.outline := by rw [h.parameters]
      _ = P.parameters.map Variable.outline := congrArg Procedure.parameters ho.symm
  have hbuiltin : P'.isBuiltin = P.isBuiltin :=
    calc P'.isBuiltin
      _ = Q'.isBuiltin := Procedure.isBuiltin_eq_of_outline ho'
      _ = Q.isBuiltin := h.isBuiltin
      _ = P.isBuiltin := (Procedure.isBuiltin_eq_of_outline ho).symm
  have hnames : (u'.scope P'.localScope).names = (u.scope P.localScope).names := by
    rw [hn, hn', hs, hs', h.scope]
  have hdistinct : (u.scope P.localScope).names.Nodup := by
    rw [hn, hs]
    exact h.distinct
  have hget := hp.get?_eq hp' hP fun name => by rw [hw.outline, hw'.outline, hs, hs', h.scope]
  have henc := hP'.enclosing.trans hP.enclosing.symm
  exact ⟨hp.signature_eq hp' hparameters, hp'.layout.trans hp.layout.symm, hbuiltin,
    Scope.eq_of_get? henc hnames hdistinct hget, hP.enclosing, hdistinct, hP.hasScope, hP'.hasScope⟩

/-- A scope in which no places are written stays as it is. -/
theorem scope_eq_of_others {id : ScopeId} (hw : t.WritesPlaces S u) (hS : ∀ n, ¬S id n)
    (hn : (u.scope id).names = (t.scope id).names) (hd : (t.scope id).names.Nodup) :
    u.scope id = t.scope id :=
  Scope.eq_of_get? (hw.enclosing id) hn hd fun name => hw.others id name (hS name)

/-! ## Programs -/

/-- The allocation of the accepted program `q` has made the table `u` of `t`. -/
structure AllocatedFrom (leaves : Bool) (t : SymbolTable) (q : Program) (u : SymbolTable) :
    Prop where
  accepted : Accepted t q
  writes : t.WritesPlaces (fun id n => ∃ d ∈ q.procedures, PlacesIn t d id n) u
  placed : ∀ d ∈ q.procedures, ∃ P, u.Declares d P ∧ Placed leaves u d P
  names : ∀ id, (u.scope id).names = (t.scope id).names

namespace AllocatedFrom

theorem of_run (hA : Accepted t q) (hr : (allocate leaves q).run t = .ok () u) :
    AllocatedFrom leaves t q u := by
  have hends : Ends (SumFault True) _ (allocate leaves q) t :=
    allocateProcedures_ends hA (fun _ hd => hd) hA.nodup_names (.inr trivial)
  obtain ⟨-, hw, hp⟩ := hends.ok hr
  exact ⟨hA, hw, hp, (allocate_editsInPlace leaves q t).ok hr⟩

theorem argumentRoom (h : AllocatedFrom leaves t q u) : ∀ d ∈ q.procedures, d.ArgumentRoom := by
  intro d hd
  obtain ⟨P, -, hp⟩ := h.placed d hd
  exact ⟨hp.argumentRoom, hp.outgoingRoom⟩

/-- A procedure of another name keeps its entry and its local scope. -/
theorem unplaced (h : AllocatedFrom leaves t q u) (hs : t.Separate q.procedures) {name : String}
    (hname : name ∉ q.procedures.map (·.name)) (hQ : t.procedure? name = some Q)
    (henc : (t.scope Q.localScope).enclosing = [global])
    (hd : (t.scope Q.localScope).names.Nodup) :
    u.procedure? name = some Q ∧ u.scope Q.localScope = t.scope Q.localScope := by
  have hne : Q.localScope ≠ global := fun hg => by
    rw [hg, h.accepted.holds.enclosing] at henc
    cases henc
  refine ⟨?_, scope_eq_of_others h.writes (fun n => ?_) (h.names _) hd⟩
  · rw [h.writes.procedure?_of_not, hQ]
    rintro ⟨d, hd, P, hP, ⟨-, rfl⟩ | hg⟩
    · exact hname (List.mem_map_of_mem hd)
    · exact hP.ne_global hg.symm
  · rintro ⟨d, hd, P, hP, ⟨hg, -⟩ | heq⟩
    · exact hne hg
    · exact hs d hd P hP.procedure name hname Q hQ heq

/-- Procedures that two tables hold alike are allocated alike. -/
theorem procedure_alike (h : AllocatedFrom leaves t q u) (h' : AllocatedFrom leaves t' q' u')
    (hp : q.procedures.Perm q'.procedures) (hs : t.Separate q.procedures)
    (hs' : t'.Separate q'.procedures) (ha : Q.Alike t t' Q') {name : String}
    (hQ : t.procedure? name = some Q) (hQ' : t'.procedure? name = some Q') :
    ∃ P P', u.procedure? name = some P ∧ u'.procedure? name = some P' ∧ P.Alike u u' P' := by
  by_cases hname : name ∈ q.procedures.map (·.name)
  · obtain ⟨d, hd, rfl⟩ := List.mem_map.1 hname
    obtain ⟨P, hP, hplaced⟩ := h.placed d hd
    obtain ⟨P', hP', hplaced'⟩ := h'.placed d (hp.mem_iff.1 hd)
    obtain ⟨P₁, hP₁, ho⟩ := h.writes.procedure? hQ
    obtain ⟨P₁', hP₁', ho'⟩ := h'.writes.procedure? hQ'
    rw [hP.procedure, Option.some.injEq] at hP₁
    rw [hP'.procedure, Option.some.injEq] at hP₁'
    subst hP₁ hP₁'
    exact ⟨P, P', hP.procedure, hP'.procedure,
      ha.of_placed h.writes h'.writes h.names h'.names ho ho' hP hP' hplaced hplaced'⟩
  · have hname' : name ∉ q'.procedures.map (·.name) := fun hm =>
      hname ((hp.map _).mem_iff.2 hm)
    obtain ⟨hP, hscope⟩ := h.unplaced hs hname hQ ha.enclosing ha.distinct
    obtain ⟨hP', hscope'⟩ := h'.unplaced hs' hname' hQ' ha.symm.enclosing ha.symm.distinct
    exact ⟨Q, Q', hP, hP', ha.parameters, ha.layout, ha.isBuiltin,
      by rw [hscope, hscope', ha.scope], by rw [hscope, ha.enclosing],
      by rw [hscope]; exact ha.distinct,
      (h.writes.hasScope _).2 ha.hasScope.1, (h'.writes.hasScope _).2 ha.hasScope.2⟩

/-- Tables that are alike stay so, whatever the order in which procedures are allocated. -/
theorem alike (h : AllocatedFrom leaves t q u) (h' : AllocatedFrom leaves t' q' u')
    (hp : q.procedures.Perm q'.procedures) (hs : t.Separate q.procedures)
    (hs' : t'.Separate q'.procedures) (ha : t.Alike t') : u.Alike u' where
  hasScope := ⟨(h.writes.hasScope _).2 ha.hasScope.1, (h'.writes.hasScope _).2 ha.hasScope.2⟩
  get? name := by
    have hrel := ha.get? name
    have ho := h.writes.outline global name
    have ho' := h'.writes.outline global name
    cases he : (t.scope global).get? name with
    | none =>
      cases he' : (t'.scope global).get? name with
      | some e => rw [he, he'] at hrel; cases hrel
      | none =>
        rw [he, Option.map_none, Option.map_eq_none_iff] at ho
        rw [he', Option.map_none, Option.map_eq_none_iff] at ho'
        rw [ho, ho']
        exact .none
    | some e =>
      cases he' : (t'.scope global).get? name with
      | none => rw [he, he'] at hrel; cases hrel
      | some e' =>
        rw [he, he'] at hrel
        cases hrel with
        | some hrel =>
          cases hrel with
          | @type ty =>
            have htype : ∀ {o : Option Entry}, o.map Entry.outline = some (.type ty) →
                o = some (.type ty) := fun {o} ho => by
              obtain ⟨e, rfl, he⟩ := Option.map_eq_some_iff.1 ho
              cases e <;> cases he
              rfl
            rw [he] at ho
            rw [he'] at ho'
            rw [htype ho, htype ho']
            exact .some .type
          | proc hQ =>
            obtain ⟨P, P', hP, hP', halike⟩ := h.procedure_alike h' hp hs hs' hQ
              (procedure?_eq_some_iff.2 he) (procedure?_eq_some_iff.2 he')
            rw [procedure?_eq_some_iff.1 hP, procedure?_eq_some_iff.1 hP']
            exact .some (.proc halike)

end AllocatedFrom

/-- The allocation succeeds in one order exactly if it does in the other one, and then leaves tables
that are alike. -/
theorem allocate_reordered (leaves : Bool) (hA : Accepted t q) (hA' : Accepted t' q')
    (hp : q.procedures.Perm q'.procedures) (hs : t.Separate q.procedures)
    (hs' : t'.Separate q'.procedures) (ha : t.Alike t') :
    ((∃ u, (allocate leaves q).run t = .ok () u) ↔ ∃ u', (allocate leaves q').run t' = .ok () u') ∧
      ∀ u u', (allocate leaves q).run t = .ok () u → (allocate leaves q').run t' = .ok () u' →
        u.Alike u' := by
  have himp : ∀ {t t' : SymbolTable} {q q' : Program}, Accepted t q → Accepted t' q' →
      q.procedures.Perm q'.procedures → (∃ u, (allocate leaves q).run t = .ok () u) →
      ∃ u', (allocate leaves q').run t' = .ok () u' := by
    rintro t t' q q' hA hA' hp ⟨u, hu⟩
    have hroom := (AllocatedFrom.of_run hA hu).argumentRoom
    have hends : Ends (SumFault False) _ (allocate leaves q') t' :=
      allocate_ends hA' (.inl fun d hd => hroom d (hp.mem_iff.2 hd))
    cases hr : (allocate leaves q').run t' with
    | ok _ u' => exact ⟨u', rfl⟩
    | error f u' => exact (hends.error hr).2.elim
  exact ⟨⟨himp hA hA' hp, himp hA' hA hp.symm⟩, fun u u' hu hu' =>
    (AllocatedFrom.of_run hA hu).alike (.of_run hA' hu') hp hs hs' ha⟩

end

end Spl
