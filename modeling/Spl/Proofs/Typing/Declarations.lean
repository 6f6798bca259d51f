import Spl.Proofs.Outcome
import Spl.Proofs.SymbolTable.Declared
import Spl.Proofs.Tree.Fresh
import Spl.Proofs.Typing.Bodies
import Spl.Typing.Declarations

/-!
# The table that declarations build

Entering the declarations of a program yields a table that holds its procedures, with types that
fit everywhere, and on a fresh program it ends in no fault.

* `TypeExpr.resolve_meets`: a resolved type fits, and stands in the slot of its expression.
* `enterParameter_meets`, `enterLocal_meets`: one entry more in the local scope.
* `enterProcedure_meets`, `enterType_meets`: one declaration more in the table.
* `enterDeclarations_meets`: the table of a program.
-/

namespace Spl

open SymbolTable

variable {A : Prop} {t : SymbolTable} {scope : ScopeId}

/-! ## Type expressions -/

/-- True of a scope at which every type name stands for a type that fits. -/
def SymbolTable.TypesFit (t : SymbolTable) (scope : ScopeId) : Prop :=
  ∀ name ty, t.find? scope name = some (.type ty) → ty.Fits

theorem checkSize_meets (p : Position) (ty : Ty) :
    Meets A (fun ty' => ty' = ty ∧ ty.Fits) (checkSize p ty) := by
  unfold checkSize
  split
  · next h => exact ⟨rfl, Ty.isSome_checkedByteSize_iff.1 h⟩
  · trivial

theorem typeOfName_meets (hf : t.TypesFit scope) (p : Position) (name : String) :
    Meets A Ty.Fits (typeOfName t scope p name) := by
  unfold typeOfName
  cases h : t.find? scope name with
  | none => trivial
  | some e =>
    cases e with
    | type ty => exact hf name ty h
    | var _ => trivial
    | proc _ => trivial

theorem checkFieldNames_meets {τ : Type} :
    ∀ (seen : List String) (fields : List (Binding τ)),
      Meets A (fun _ => True) (checkFieldNames seen fields)
  | _, [] => trivial
  | seen, f :: fields => by
    unfold checkFieldNames
    split
    · trivial
    · exact checkFieldNames_meets (f.name :: seen) fields

namespace TypeExpr

mutual

/-- A type that a type expression denotes fits, and stands in the slot of the expression. -/
theorem resolve_meets (hf : t.TypesFit scope) : ∀ (e : TypeExpr), e.isFresh = true ∨ A →
    (e.resolve t scope).Meets A fun e' ty => ty.Fits ∧ e'.slot.type? = some ty
  | .named p name slot, h => by
    unfold resolve
    exact conclude_meets h ((typeOfName_meets hf p name).mono fun ty hty => ⟨hty, rfl⟩)
  | .array p size base slot, h => by
    unfold resolve
    simp only [isFresh, Bool.and_eq_true] at h
    refine (base.resolve_meets hf (h.imp_left And.right)).andThen fun b bty hb => ?_
    refine conclude_meets (h.imp_left And.left) ((checkSize_meets p (.array size bty)).mono ?_)
    intro _ h
    obtain ⟨rfl, hfit⟩ := h
    exact ⟨hfit, rfl⟩
  | .record p fields slot, h => by
    unfold resolve
    simp only [isFresh, Bool.and_eq_true] at h
    have hn : Meets A _ (checkFieldNames [] fields) := checkFieldNames_meets [] fields
    cases hc : checkFieldNames [] fields with
    | error e => rw [hc] at hn; exact hn.of_error
    | ok _ =>
      refine (resolveFields_meets hf fields (h.imp_left And.right)).andThen fun fs tys _ => ?_
      refine conclude_meets (h.imp_left And.left) ((checkSize_meets p (.record tys)).mono ?_)
      intro _ h
      obtain ⟨rfl, hfit⟩ := h
      exact ⟨hfit, rfl⟩

theorem resolveFields_meets (hf : t.TypesFit scope) :
    ∀ (fields : List (Binding TypeExpr)), fieldsFresh fields = true ∨ A →
      (resolveFields t scope fields).Meets A fun _ _ => True
  | [], _ => trivial
  | ⟨p, name, type⟩ :: fields, h => by
    unfold resolveFields
    simp only [fieldsFresh, Bool.and_eq_true] at h
    refine (type.resolve_meets hf (h.imp_left And.left)).andThen fun _ _ _ => ?_
    exact .map (.mapTree (resolveFields_meets hf fields (h.imp_left And.right)))

end

end TypeExpr

/-! ## The local scope of a procedure -/

/-- A table in which a new local scope has been filled with the given names. -/
structure Filled (t₀ t : SymbolTable) (scope : ScopeId) (names : List String) : Prop where
  hasScope : ∀ id, t.HasScope id ↔ t₀.HasScope id
  others : ∀ id, id ≠ scope → t.scope id = t₀.scope id
  local_hasScope : t.HasScope scope
  enclosing : (t.scope scope).enclosing = [global]
  nodup : names.Nodup
  declares_iff : ∀ name, (t.scope scope).declares name = true ↔ name ∈ names
  only : ∀ name e, (t.scope scope).get? name = some e → ∃ v, e = .var v ∧ v.type.Fits

/-- The variables that the local scope declares stay what they are when another one is entered. -/
theorem enterNew_meets {t₀ : SymbolTable} {names : List String} (h : Filled t₀ t scope names)
    (name : String) {v : Variable} (hv : v.type.Fits) (p : Position) (cause : SemanticError) :
    Meets A (fun t' => Filled t₀ t' scope (names ++ [name]) ∧ t'.local? scope name = some v ∧
        ∀ n w, t.local? scope n = some w → t'.local? scope n = some w)
      (enterNew t scope name (.var v) p cause) := by
  unfold enterNew
  cases he : t.enter? scope name (.var v) with
  | none => trivial
  | some t' =>
    obtain ⟨hd, rfl⟩ := enter?_eq_some_iff.1 he
    have hs : (t.modifyScope scope (·.add name (.var v))).scope scope =
        (t.scope scope).add name (.var v) := by
      rw [scope_modifyScope h.local_hasScope, if_pos rfl]
    have hnew : name ∉ names := fun hm => by
      rw [(h.declares_iff name).2 hm] at hd; cases hd
    refine ⟨⟨fun id => ?_, fun id hid => ?_, ?_, ?_, ?_, fun n => ?_, fun n e hn => ?_⟩, ?_, ?_⟩
    · rw [hasScope_modifyScope_iff]; exact h.hasScope id
    · rw [scope_modifyScope_of_ne hid]; exact h.others id hid
    · exact hasScope_modifyScope_iff.2 h.local_hasScope
    · rw [hs]; exact h.enclosing
    · refine List.nodup_append.2 ⟨h.nodup, by simp, fun a ha b hb e => hnew ?_⟩
      rw [← List.mem_singleton.1 hb, ← e]
      exact ha
    · rw [hs, Scope.declares, Scope.get?_add, List.mem_append, ← h.declares_iff, Scope.declares]
      by_cases hn : n = name <;> simp [hn]
    · rw [hs, Scope.get?_add] at hn
      cases hg : (t.scope scope).get? n with
      | some e' => rw [hg] at hn; cases hn; exact h.only n _ hg
      | none =>
        rw [hg] at hn
        by_cases hnn : n = name
        · rw [if_pos hnn] at hn; cases hn; exact ⟨v, rfl, hv⟩
        · rw [if_neg hnn] at hn; cases hn
    · rw [local?_eq_some_iff, hs, Scope.get?_add_self hd]
    · intro n w hw
      rw [local?_eq_some_iff] at hw ⊢
      rw [hs]
      exact Scope.get?_add_of_some hw name (.var v)

theorem Filled.typesFit {t₀ : SymbolTable} {names : List String} (h : Filled t₀ t scope names)
    (hne : scope ≠ global) (hg : t₀.TypesFit global) (he : (t₀.scope global).enclosing = []) :
    t.TypesFit scope := by
  intro name ty hf
  have hc : t.chain scope = [scope, global] := by rw [SymbolTable.chain, h.enclosing]
  have hgl : t.scope global = t₀.scope global := h.others global (Ne.symm hne)
  rw [SymbolTable.find?, hc, List.findSome?_cons] at hf
  cases hl : (t.scope scope).get? name with
  | some e =>
    rw [hl] at hf
    cases hf
    obtain ⟨v, hv, -⟩ := h.only name _ hl
    cases hv
  | none =>
    rw [hl] at hf
    simp only [List.findSome?_cons, List.findSome?_nil, hgl] at hf
    refine hg name ty ?_
    rw [find?_global he]
    cases hx : (t₀.scope global).get? name with
    | none => rw [hx] at hf; cases hf
    | some e => rw [hx] at hf; exact hf

/-- The parameters entered so far are declared as they should be. -/
def Parameters (t₀ t : SymbolTable) (scope : ScopeId) (bs : List ParamDecl)
    (vs : List Variable) : Prop :=
  Filled t₀ t scope (bs.map (·.name)) ∧
    List.Forall₂ (fun b v => v.Realizes b ∧ t.local? scope b.name = some v) bs vs

theorem forall₂_append_singleton {α β : Type} {R : α → β → Prop} {a : α} {b : β} (hab : R a b)
    {l : List α} {m : List β} (h : List.Forall₂ R l m) : List.Forall₂ R (l ++ [a]) (m ++ [b]) := by
  induction h with
  | nil => exact .cons hab .nil
  | cons h _ ih => exact .cons h ih

/-- Entering a parameter adds its variable to the local scope and to the signature. -/
theorem enterParameter_meets {t₀ : SymbolTable} {bs : List ParamDecl} {vs : List Variable}
    (hI : Parameters t₀ t scope bs vs) (hf : t.TypesFit scope) (b : ParamDecl)
    (h : b.type.isFresh = true ∨ A) :
    (enterParameter scope t b).Meets A
      fun (t', b') v => Parameters t₀ t' scope (bs ++ [b']) (vs ++ [v]) := by
  unfold enterParameter
  refine (TypeExpr.resolve_meets hf b.type h).andThen fun e ty ⟨hfit, hslot⟩ => ?_
  have he : Meets A (fun t' => Parameters t₀ t' scope (bs ++ [{ b with type := e }])
      (vs ++ [{ type := ty, isReference := b.isReference }])) (do
        if ty.isAggregate ∧ ¬b.isReference then
          Failure.report b.position (.aggregateByValue b.name)
        enterNew t scope b.name (.var { type := ty, isReference := b.isReference }) b.position
          (.redeclaredAsParameter b.name)) := by
    by_cases hagg : ty.isAggregate ∧ ¬b.isReference
    · rw [if_pos hagg]; trivial
    · rw [if_neg hagg]
      refine (enterNew_meets hI.1 b.name hfit b.position _).mono ?_
      intro t' h
      obtain ⟨hfill, hnew, hold⟩ := h
      have hr : { type := ty, isReference := b.isReference : Variable }.Realizes
          { b with type := e } := by
        refine ⟨rfl, hfit, fun href => ?_⟩
        cases ha : ty.isAggregate with
        | false => rfl
        | true => exact absurd ⟨ha, by simpa using href⟩ hagg
      refine ⟨by simpa using hfill, forall₂_append_singleton ⟨hr, hnew⟩ ?_⟩
      exact hI.2.imp fun b v hv => ⟨hv.1, hold _ _ hv.2⟩
  dsimp only
  split
  · next t' hx => exact he.of_ok hx
  · next e' hx => rw [hx] at he; exact he.of_error

/-- The total that passes its check is exact and leaves room for the linkage. -/
theorem addLocalSize_meets (procedure : String) (p : Position) {before size : Word} {m n : Nat}
    (hm : before.toInt = m) (hn : size.toInt = n) :
    Meets A (fun w : Word => w.toInt = ((m + n : Nat) : Int) ∧ m + n + 8 ≤ Word.maxNat)
      (addLocalSize procedure p before size) := by
  unfold addLocalSize
  cases hs : before.sum size with
  | error f => trivial
  | ok total =>
    have ht := Word.sum_eq_ok_iff.1 hs
    dsimp only
    cases hl : total.sum linkageBytes with
    | error f => trivial
    | ok w =>
      have hw := Word.sum_eq_ok_iff.1 hl
      have h8 : linkageBytes.toInt = 8 := rfl
      have hr := w.inRange_toInt
      unfold Word.InRange at hr
      unfold Word.maxNat
      change total.toInt = ((m + n : Nat) : Int) ∧ _
      omega

/-- The parameters `ps` with the signature `vs` and the local variables `bs` entered so far are
declared as they should be, and the sizes of the latter are added up. -/
structure Locals (t₀ t : SymbolTable) (scope : ScopeId) (ps : List ParamDecl) (vs : List Variable)
    (before : Word) (bs : List (Binding TypeExpr)) : Prop where
  filled : Filled t₀ t scope (ps.map (·.name) ++ bs.map (·.name))
  parameters : List.Forall₂ (fun b v => v.Realizes b ∧ t.local? scope b.name = some v) ps vs
  locals : ∀ b ∈ bs, ∃ v, t.local? scope b.name = some v ∧ v.isReference = false ∧
    b.type.slot.type? = some v.type
  size : before.toInt = ProcDecl.bytesOf bs
  room : ProcDecl.bytesOf bs + 8 ≤ Word.maxNat

/-- Entering a local variable adds it to the local scope, and its size to the total. -/
theorem enterLocal_meets {t₀ : SymbolTable} {ps : List ParamDecl} {vs : List Variable}
    {before : Word} {bs : List (Binding TypeExpr)} (hI : Locals t₀ t scope ps vs before bs)
    (hf : t.TypesFit scope) (procedure : String) (b : Binding TypeExpr)
    (h : b.type.isFresh = true ∨ A) :
    (enterLocal procedure scope (t, before) b).Meets A
      fun (s, b') _ => Locals t₀ s.1 scope ps vs s.2 (bs ++ [b']) := by
  unfold enterLocal
  refine (TypeExpr.resolve_meets hf b.type h).andThen fun e ty ⟨hfit, hslot⟩ => ?_
  obtain ⟨size, hsize, hsize'⟩ := Ty.byteSize_of_fits hfit
  have hbytes : e.bytes = ty.bytes := by rw [TypeExpr.bytes, hslot]; rfl
  dsimp only
  rw [hsize]
  have he : Meets A (fun s : SymbolTable × Word =>
        Locals t₀ s.1 scope ps vs s.2 (bs ++ [{ b with type := e }]))
      (enterNew t scope b.name (.var { type := ty, isReference := false }) b.position
        (.redeclaredAsVariable b.name) >>= fun t' =>
          addLocalSize procedure b.position before size >>= fun total => pure (t', total)) := by
    refine (enterNew_meets hI.filled b.name hfit b.position _).bind ?_
    intro t' h
    obtain ⟨hfill, hnew, hold⟩ := h
    refine (addLocalSize_meets procedure b.position hI.size hsize').bind fun total htotal => ?_
    have hsum : ProcDecl.bytesOf (bs ++ [{ b with type := e }]) =
        ProcDecl.bytesOf bs + ty.bytes := by
      simp [ProcDecl.bytesOf_append, ProcDecl.bytesOf, hbytes]
    refine ⟨by simpa using hfill, ?_, fun b' hb' => ?_, by rw [hsum]; exact htotal.1, ?_⟩
    · exact hI.parameters.imp fun b v hv => ⟨hv.1, hold _ _ hv.2⟩
    · rcases List.mem_append.1 hb' with hb' | hb'
      · obtain ⟨v, hv, hr⟩ := hI.locals b' hb'
        exact ⟨v, hold _ _ hv, hr⟩
      · rw [List.mem_singleton.1 hb']
        exact ⟨_, hnew, rfl, hslot⟩
    · rw [hsum]
      exact htotal.2
  split
  · next s hx => exact he.of_ok hx
  · next e' hx => exact Spl.Meets.of_error ((congrArg (Spl.Meets A _) hx).mp he)

/-! ## The global scope -/

section
variable {t₀ t₁ : SymbolTable} {ds : List ProcDecl} {name : String} {e : Entry}

/-- A table grows when its scopes stay and a new name is entered into the global one. -/
theorem grows_add (hs : ∀ id, t₀.HasScope id → t₁.HasScope id ∧ t₁.scope id = t₀.scope id)
    (hg : t₀.HasScope global) (hd : (t₁.scope global).declares name = false) :
    t₀.Grows (t₁.modifyScope global (·.add name e)) ∧
      ∀ n, ((t₁.modifyScope global (·.add name e)).scope global).get? n =
        if n = name then some e else (t₀.scope global).get? n := by
  have hgl : (t₁.modifyScope global (·.add name e)).scope global =
      (t₀.scope global).add name e := by
    rw [scope_modifyScope (hs _ hg).1, if_pos rfl, (hs _ hg).2]
  rw [(hs _ hg).2] at hd
  refine ⟨⟨fun id h => hasScope_modifyScope_iff.2 (hs id h).1, fun id h hne => ?_, ?_,
    fun n e' he => ?_⟩, fun n => ?_⟩
  · rw [scope_modifyScope_of_ne hne, (hs id h).2]
  · rw [hgl]; rfl
  · rw [hgl]; exact Scope.get?_add_of_some he name e
  · rw [hgl, Scope.get?_add]
    by_cases hn : n = name
    · subst hn
      have hnone : (t₀.scope global).get? n = none :=
        Option.not_isSome_iff_eq_none.1 (by simpa [Scope.declares] using hd)
      simp [hnone]
    · simp [hn]

/-- A name that is new is that of no procedure. -/
theorem SymbolTable.Holds.name_ne (hH : t₀.Holds ds) (hnone : (t₀.scope global).get? name = none)
    {d : ProcDecl} (hd : d ∈ ds) : d.name ≠ name := by
  intro hn
  obtain ⟨P, hP⟩ := hH.declares d hd
  have hentry := procedure?_eq_some_iff.1 hP.procedure
  rw [hn, hnone] at hentry
  cases hentry

/-- Procedures with new local scopes keep the local scopes apart. -/
theorem SymbolTable.Holds.separate_grow (hH : t₀.Holds ds) (hgr : t₀.Grows t₁)
    {new : List ProcDecl} (hname : ∀ d ∈ new, d.name = name)
    (hdecl : ∀ d ∈ new, ∃ P, t₁.Declares d P ∧ ¬t₀.HasScope P.localScope) :
    ∀ d ∈ ds ++ new, ∀ d' ∈ ds ++ new, ∀ P P', t₁.Declares d P → t₁.Declares d' P' →
      P.localScope = P'.localScope → d.name = d'.name := by
  have hold : ∀ d ∈ ds, ∃ P, t₁.Declares d P ∧ t₀.HasScope P.localScope := fun d hd => by
    obtain ⟨P, hP⟩ := hH.declares d hd
    exact ⟨P, hP.grow hgr, hP.hasScope⟩
  intro d hd d' hd' P P' hP hP' heq
  -- An old local scope exists in the old table, the new one does not.
  rcases List.mem_append.1 hd with hd | hd <;> rcases List.mem_append.1 hd' with hd' | hd'
  · obtain ⟨Q, hQ⟩ := hH.declares d hd
    obtain ⟨Q', hQ'⟩ := hH.declares d' hd'
    obtain rfl := hP.unique (hQ.grow hgr)
    obtain rfl := hP'.unique (hQ'.grow hgr)
    exact hH.separate d hd d' hd' P P' hQ hQ' heq
  · obtain ⟨Q, hQ, hs⟩ := hold d hd
    obtain ⟨Q', hQ', hs'⟩ := hdecl d' hd'
    rw [hP.unique hQ, hP'.unique hQ'] at heq
    exact absurd (heq ▸ hs) hs'
  · obtain ⟨Q, hQ, hs⟩ := hdecl d hd
    obtain ⟨Q', hQ', hs'⟩ := hold d' hd'
    rw [hP.unique hQ, hP'.unique hQ'] at heq
    exact absurd (heq ▸ hs') hs
  · rw [hname d hd, hname d' hd']

/-- What is left to show of a table that has grown by one global name: the new procedures. -/
theorem SymbolTable.Holds.grow (hH : t₀.Holds ds) (hgr : t₀.Grows t₁)
    (hnew : ∀ n, (t₁.scope global).get? n = if n = name then some e else (t₀.scope global).get? n)
    (new : List ProcDecl) (hname : ∀ d ∈ new, d.name = name) (hone : new.length ≤ 1)
    (hfresh : (t₀.scope global).declares name = false)
    (hdecl : ∀ d ∈ new, ∃ P, t₁.Declares d P ∧ ¬t₀.HasScope P.localScope)
    (he : (∃ ty, e = .type ty ∧ ty.Fits) ∨ (∃ P, e = .proc P) ∧ ∃ d ∈ new, d.name = name) :
    t₁.Holds (ds ++ new) := by
  have hnone : (t₀.scope global).get? name = none :=
    Option.not_isSome_iff_eq_none.1 (by simpa [Scope.declares] using hfresh)
  refine
    { hasScope := hgr.hasScope _ hH.hasScope
      enclosing := by rw [hgr.enclosing]; exact hH.enclosing
      nodup := ?_
      declares := fun d hd => ?_
      separate := hH.separate_grow hgr hname hdecl
      builtins := fun b hb => ?_
      notBuiltin := fun d hd b hb hn => ?_
      only := fun n e' hn => ?_ }
  · rw [List.map_append, List.nodup_append]
    refine ⟨hH.nodup, ?_, fun a ha b hb hab => ?_⟩
    · rcases new with _ | ⟨d, new⟩
      · exact List.nodup_nil
      · obtain rfl : new = [] := by simpa using hone
        simp
    · obtain ⟨d, hd, rfl⟩ := List.mem_map.1 ha
      obtain ⟨d', hd', rfl⟩ := List.mem_map.1 hb
      exact hH.name_ne hnone hd (hab.trans (hname d' hd'))
  · rcases List.mem_append.1 hd with hd | hd
    · obtain ⟨P, hP⟩ := hH.declares d hd
      exact ⟨P, hP.grow hgr⟩
    · obtain ⟨P, hP, -⟩ := hdecl d hd
      exact ⟨P, hP⟩
  · obtain ⟨P, hP, hps⟩ := hH.builtins b hb
    exact ⟨P, hgr.procedure? hP, hps⟩
  · rcases List.mem_append.1 hd with hd | hd
    · exact hH.notBuiltin d hd b hb hn
    · obtain ⟨P, hP, -⟩ := hH.builtins b hb
      have := procedure?_eq_some_iff.1 hP
      rw [← hn, hname d hd, hnone] at this
      cases this
  · rw [hnew] at hn
    by_cases hnn : n = name
    · rw [if_pos hnn] at hn
      cases hn
      refine he.imp_right fun hold => ?_
      obtain ⟨hP, d, hd, hdn⟩ := hold
      refine ⟨hP, .inr ⟨d, ?_, ?_⟩⟩
      · exact List.mem_append.2 (.inr hd)
      · rw [hdn, hnn]
    · rw [if_neg hnn] at hn
      refine (hH.only n e' hn).imp_right fun hold => ?_
      obtain ⟨hP, h⟩ := hold
      refine ⟨hP, h.imp_right fun hds => ?_⟩
      obtain ⟨d, hd, hdn⟩ := hds
      exact ⟨d, List.mem_append.2 (.inl hd), hdn⟩

end

/-! ## Declarations -/

/-- Entering a type declaration adds no procedure. -/
theorem enterType_meets {ds : List ProcDecl} (hH : t.Holds ds) (d : Binding TypeExpr)
    (h : d.type.isFresh = true ∨ A) :
    (enterType t d).Meets A fun _ t' => t'.Holds ds := by
  unfold enterType
  split
  · trivial
  · have hf : t.TypesFit global := fun name ty => hH.find?_type_global
    refine (TypeExpr.resolve_meets hf d.type h).andThen fun e ty ⟨hfit, _⟩ => ?_
    change Meets A (fun t' => t'.Holds ds) (enterNew t global d.name (.type ty) d.position _)
    unfold enterNew
    cases he : t.enter? global d.name (.type ty) with
    | none => trivial
    | some t' =>
      obtain ⟨hd, rfl⟩ := enter?_eq_some_iff.1 he
      obtain ⟨hgr, hnew⟩ := grows_add (e := Entry.type ty) (fun id h => ⟨h, rfl⟩) hH.hasScope hd
      simpa using hH.grow hgr hnew [] (by simp) (by simp) hd (by simp) (.inl ⟨ty, rfl, hfit⟩)

/-- A local scope that has been filled declares the procedure whose entry refers to it. -/
theorem Locals.declares {t₀ : SymbolTable} {d : ProcDecl} {vs : List Variable} {before : Word}
    (hI : Locals t₀ t scope d.parameters vs before d.locals) (hne : scope ≠ global)
    (hg : t.HasScope global) (hd : (t.scope global).declares d.name = false) :
    (t.modifyScope global (·.add d.name (.proc { localScope := scope, parameters := vs }))).Declares
      d { localScope := scope, parameters := vs } := by
  have hs : (t.modifyScope global
      (·.add d.name (.proc { localScope := scope, parameters := vs }))).scope scope =
      t.scope scope := scope_modifyScope_of_ne hne _
  have hl : ∀ name, (t.modifyScope global
      (·.add d.name (.proc { localScope := scope, parameters := vs }))).local? scope name =
      t.local? scope name := fun name => by rw [local?, hs, local?]
  refine
    { procedure := ?_
      hasScope := hasScope_modifyScope_iff.2 hI.filled.local_hasScope
      ne_global := hne
      enclosing := by rw [hs]; exact hI.filled.enclosing
      nodup := hI.filled.nodup
      parameters := hI.parameters.imp fun b v hv => ⟨hv.1, v, by rw [hl]; exact hv.2, rfl⟩
      locals := by simpa only [hl] using hI.locals
      only := fun n e hn => by
        rw [hs] at hn
        refine ⟨(hI.filled.declares_iff n).1 ?_, hI.filled.only n e hn⟩
        rw [Scope.declares, hn]
        rfl
      room := hI.room }
  rw [procedure?_eq_some_iff, scope_modifyScope hg, if_pos rfl, Scope.get?_add_self hd]

/-- The second table is the first one with a new, empty scope inside the global one. -/
structure Opened (t t₁ : SymbolTable) (scope : ScopeId) : Prop where
  fresh : ¬t.HasScope scope
  ne_global : scope ≠ global
  old : ∀ id, t.HasScope id → t₁.HasScope id ∧ t₁.scope id = t.scope id
  typesFit : t₁.TypesFit global
  enclosing : (t₁.scope global).enclosing = []
  filled : Filled t₁ t₁ scope []

theorem SymbolTable.Holds.opened {ds : List ProcDecl} (hH : t.Holds ds) :
    Opened t (t.newScope global).2 (t.newScope global).1 := by
  have hfresh : ¬t.HasScope (t.newScope global).1 := Nat.lt_irrefl _
  have hold : ∀ id, t.HasScope id →
      (t.newScope global).2.HasScope id ∧ (t.newScope global).2.scope id = t.scope id :=
    fun id hid => ⟨hasScope_newScope_iff.2 (.inl hid), scope_newScope hid global⟩
  have hself : (t.newScope global).2.scope (t.newScope global).1 =
      { enclosing := [global], entries := [] } := by
    rw [scope_newScope_self, SymbolTable.chain, hH.enclosing]
  refine
    { fresh := hfresh
      ne_global := fun e => hfresh (e ▸ hH.hasScope)
      old := hold
      typesFit := fun name ty hf => ?_
      enclosing := by rw [(hold _ hH.hasScope).2]; exact hH.enclosing
      filled :=
        { hasScope := fun _ => Iff.rfl
          others := fun _ _ => rfl
          local_hasScope := hasScope_newScope_iff.2 (.inr rfl)
          enclosing := by rw [hself]
          nodup := List.nodup_nil
          declares_iff := fun name => by simp [hself, Scope.declares, Scope.get?]
          only := fun name e he => by rw [hself] at he; cases he } }
  rw [SymbolTable.find?, SymbolTable.chain, (hold _ hH.hasScope).2, hH.enclosing,
    List.findSome?_cons, (hold _ hH.hasScope).2] at hf
  refine @Holds.find?_type_global _ _ hH name ty ?_
  rwa [SymbolTable.find?, SymbolTable.chain, hH.enclosing, List.findSome?_cons]

/-- Entering a procedure adds it to the procedures that the table holds. -/
theorem enterProcedure_meets {ds : List ProcDecl} (hH : t.Holds ds) (d : ProcDecl)
    (h : d.isFresh = true ∨ A) :
    (enterProcedure t d).Meets A fun d' t' =>
      t'.Holds (ds ++ [d'.head]) ∧ d'.name = d.name ∧ d'.body = d.body := by
  simp only [ProcDecl.isFresh, Bool.and_eq_true, List.all_eq_true] at h
  unfold enterProcedure
  rcases hn : t.newScope global with ⟨scope, t₁⟩
  have ho : Opened t t₁ scope := by
    have h := hH.opened
    rwa [hn] at h
  dsimp only
  refine Visit.Meets.andThen (Visit.Meets.thread
    (I := fun t' _ bs vs => Parameters t₁ t' scope bs vs)
    (fun b hb t' _ bs vs hI => ?_) ⟨ho.filled, .nil⟩) ?_
  · exact enterParameter_meets hI (hI.1.typesFit ho.ne_global ho.typesFit ho.enclosing) b
      (h.imp_left fun h => h.1.1 b hb)
  intro v vs h
  obtain ⟨t₂, ps⟩ := v
  obtain ⟨hfill₂, hps⟩ := h
  refine Visit.Meets.andThen (Visit.Meets.thread
    (I := fun s _ bs _ => Locals t₁ s.1 scope ps vs s.2 bs)
    (fun b hb s _ bs _ hI => ?_) ⟨by simpa using hfill₂, hps, by simp, rfl, by decide⟩) ?_
  · exact enterLocal_meets hI (hI.filled.typesFit ho.ne_global ho.typesFit ho.enclosing) d.name b
      (h.imp_left fun h => h.1.2 b hb)
  intro v _ hI
  obtain ⟨⟨t₃, total⟩, bs⟩ := v
  unfold Visit.Meets enterNew
  dsimp only
  cases he : t₃.enter? global d.name (.proc { localScope := scope, parameters := vs }) with
  | none => trivial
  | some t' =>
    obtain ⟨hd, rfl⟩ := enter?_eq_some_iff.1 he
    have hold₃ : ∀ id, t.HasScope id → t₃.HasScope id ∧ t₃.scope id = t.scope id :=
      fun id hid => by
        have hids : id ≠ scope := fun e => ho.fresh (e ▸ hid)
        exact ⟨(hI.filled.hasScope id).2 (ho.old id hid).1,
          by rw [hI.filled.others id hids, (ho.old id hid).2]⟩
    obtain ⟨hgr, hnew⟩ := grows_add (e := .proc { localScope := scope, parameters := vs })
      hold₃ hH.hasScope hd
    rw [(hold₃ _ hH.hasScope).2] at hd
    refine ⟨hH.grow hgr hnew [_] (fun d' hd' => ?_) (by simp) hd (fun d' hd' => ?_) ?_, rfl, rfl⟩
    · rw [List.mem_singleton.1 hd']; rfl
    · rw [List.mem_singleton.1 hd']
      refine ⟨_, Locals.declares (d := ProcDecl.head { d with parameters := ps, locals := bs })
        hI ho.ne_global (hold₃ _ hH.hasScope).1 ?_, ho.fresh⟩
      rw [(hold₃ _ hH.hasScope).2]
      exact hd
    · exact .inr ⟨⟨_, rfl⟩, _, .head _, rfl⟩

/-- Entering a declaration keeps what the table holds. -/
theorem enterDeclaration_meets {done : List Decl}
    (hH : t.Holds ((done.filterMap Decl.procedure?).map ProcDecl.head)) (d : Decl)
    (h : d.isFresh = true ∨ A) :
    (enterDeclaration t d).Meets A fun (t', d') _ =>
      t'.Holds (((done ++ [d']).filterMap Decl.procedure?).map ProcDecl.head) ∧
        ∀ q, d'.procedure? = some q → Stmt.allFresh q.body = true ∨ A := by
  unfold enterDeclaration
  cases d with
  | type d =>
    refine (Visit.Meets.mapTree (f := Decl.type) (R := fun d' t' => d'.procedure? = none ∧
      t'.Holds ((done.filterMap Decl.procedure?).map ProcDecl.head))
      ((enterType_meets hH d h).mono fun _ t' ht' => ⟨rfl, ht'⟩)).andThen ?_
    intro d' t' h
    obtain ⟨hd', ht'⟩ := h
    refine ⟨?_, fun q hq => by rw [hd'] at hq; cases hq⟩
    simpa [List.filterMap_append, List.filterMap_cons, hd'] using ht'
  | procedure d =>
    refine (Visit.Meets.mapTree (f := Decl.procedure) (R := fun d' t' => ∃ q,
      d'.procedure? = some q ∧ (Stmt.allFresh q.body = true ∨ A) ∧
      t'.Holds ((done.filterMap Decl.procedure?).map ProcDecl.head ++ [q.head]))
      ((enterProcedure_meets hH d h).mono fun q t' ⟨ht', _, hb⟩ => ⟨q, rfl, ?_, ht'⟩)).andThen ?_
    · rw [hb]
      simp only [Decl.isFresh, ProcDecl.isFresh, Bool.and_eq_true] at h
      exact h.imp_left And.right
    · intro d' t' h
      obtain ⟨q, hd', hq, ht'⟩ := h
      refine ⟨?_, fun q' hq' => by rw [hd'] at hq'; cases hq'; exact hq⟩
      simpa [List.filterMap_append, List.filterMap_cons, hd'] using ht'

theorem mem_of_lookup {α : Type} {name : String} {a : α} {l : List (String × α)}
    (h : l.lookup name = some a) : (name, a) ∈ l := by
  obtain ⟨l₁, l₂, rfl, -⟩ := List.lookup_eq_some_iff.1 h
  exact List.mem_append.2 (.inr (.head _))

/-- The predefined table holds no procedure but the builtins. -/
theorem predefined_holds : predefined.Holds [] where
  hasScope := by unfold HasScope; decide
  enclosing := rfl
  nodup := List.nodup_nil
  declares _ hd := by cases hd
  separate _ hd := by cases hd
  builtins b hb := by
    have h : ∀ b ∈ builtins,
        (predefined.procedure? b.name).map Procedure.parameters = some b.signature := by decide
    simpa only [Option.map_eq_some_iff] using h b hb
  notBuiltin _ hd := by cases hd
  only name e he := by
    have h : ∀ p ∈ (predefined.scope global).entries, p.2 = .type .int ∨ p.2 = .type .bool ∨
        p.2.proc?.isSome = true ∧ p.1 ∈ builtins.map Builtin.name := by decide
    rcases h _ (mem_of_lookup he) with h | h | ⟨hp, hb⟩
    · exact .inl ⟨.int, h, trivial⟩
    · exact .inl ⟨.bool, h, trivial⟩
    · cases e with
      | proc P => exact .inr ⟨⟨P, rfl⟩, .inl (List.mem_map.1 hb)⟩
      | type _ => cases hp
      | var _ => cases hp

/-- Entering the declarations of a program yields a table that holds its procedures, whose bodies
are as they were. -/
theorem enterDeclarations_meets (entry : String) (p : Program) (h : p.isFresh = true ∨ A) :
    (enterDeclarations entry p).Meets A fun p' t =>
      t.Holds p'.heads ∧ ∀ q ∈ p'.procedures, Stmt.allFresh q.body = true ∨ A := by
  simp only [Program.isFresh, List.all_eq_true] at h
  unfold enterDeclarations
  refine Visit.Meets.andThen (Visit.Meets.thread
    (I := fun t _ done _ => t.Holds ((done.filterMap Decl.procedure?).map ProcDecl.head) ∧
      ∀ q ∈ done.filterMap Decl.procedure?, Stmt.allFresh q.body = true ∨ A)
    (fun d hd t _ done _ hI => ?_) ⟨predefined_holds, by simp⟩) ?_
  · refine (enterDeclaration_meets hI.1 d (h.imp_left fun h => h d hd)).mono ?_
    intro v _ h
    obtain ⟨t', d'⟩ := v
    obtain ⟨ht', hd'⟩ := h
    refine ⟨ht', fun q hq => ?_⟩
    rw [List.filterMap_append, List.mem_append] at hq
    rcases hq with hq | hq
    · exact hI.2 q hq
    · rw [List.filterMap_cons] at hq
      cases hq' : d'.procedure? with
      | none => rw [hq'] at hq; cases hq
      | some q' =>
        rw [hq'] at hq
        rw [List.mem_singleton.1 hq]
        exact hd' q' hq'
  · intro v _ hI
    obtain ⟨t', ds⟩ := v
    unfold Visit.Meets
    dsimp only
    have he : Meets A (fun _ => True) (checkEntry entry p) := by
      unfold checkEntry
      split
      · trivial
      · trivial
      · split <;> trivial
    exact he.bind fun _ _ => hI

end Spl
