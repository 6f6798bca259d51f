import Spl.Proofs.Follows
import Spl.Proofs.SymbolTable.Differing
import Spl.Typing.Declarations

/-!
# Declarations that are entered alike

The declarations of two programs are entered into two tables. Where type expressions are resolved to
the same types and names that the first table takes are taken by the second one, the second program
is accepted if the first one is. The relation of the tables is a parameter.

* `TypeExpr.ResolvesAlike`: type expressions that stand for the same type.
* `TypeExpr.resolve_follows`: names that stand for the same types.
* `enterParameter_follows`, `enterLocal_follows`, `enterType_follows`, `enterProcedure_follows`:
  what is to be shown of each kind of declaration.
* `enterDeclaration_parallel`, `enterDeclarations_parallel`: the same declarations, entered into
  tables that differ in one scope.
* `enterDeclarations_eq_ok_iff`, `checkEntry_eq_ok_iff`: programs.
-/

namespace Spl

open SymbolTable

variable {t t' u₁ u₁' : SymbolTable} {scope : ScopeId} {T : TypeExpr → TypeExpr → Prop}
  {L M : SymbolTable → SymbolTable → Prop}

/-! ## Type expressions -/

namespace TypeExpr

mutual

/-- The names of types that a type expression mentions. -/
def names : TypeExpr → List String
  | .named _ name _ => [name]
  | .array _ _ base _ => base.names
  | .record _ fields _ => namesOf fields

/-- The names of types that the fields of a record mention. -/
def namesOf : List (Binding TypeExpr) → List String
  | [] => []
  | ⟨_, _, type⟩ :: fields => type.names ++ namesOf fields

end

/-- If the first expression is resolved in the first table, so is the second one in the second
table, to the same type. The results are related by `T`. -/
def ResolvesAlike (T : TypeExpr → TypeExpr → Prop) (scope : ScopeId) (t t' : SymbolTable)
    (e e' : TypeExpr) : Prop :=
  (e.resolve t scope).Follows (fun y a y' a' => T y y' ∧ a' = a) (e'.resolve t' scope)

theorem typeOfName_of_find? {p : Position} {name : String}
    (h : ∀ ty, t.find? scope name = some (.type ty) → t'.find? scope name = some (.type ty))
    (ty : Ty) (hty : typeOfName t scope p name = .ok ty) :
    typeOfName t' scope p name = .ok ty := by
  unfold typeOfName at hty ⊢
  cases he : t.find? scope name with
  | none => rw [he] at hty; cases hty
  | some e =>
    rw [he] at hty
    cases e with
    | type ty' =>
      rw [h ty' he]
      exact hty
    | var _ => cases hty
    | proc _ => cases hty

mutual

/-- Names that denote types still denote them, so the expression is resolved to the same type. -/
theorem resolve_follows : ∀ e : TypeExpr,
    (∀ n ∈ e.names, ∀ ty, t.find? scope n = some (.type ty) →
      t'.find? scope n = some (.type ty)) →
    e.ResolvesAlike (fun y y' => y' = y) scope t t' e
  | .named p name slot, h => by
    rw [ResolvesAlike, resolve, resolve]
    refine conclude_follows (fun _ => rfl) (typeOfName_of_find? (h name ?_))
    rw [names]
    exact .head _
  | .array p size base slot, h => by
    rw [names] at h
    rw [ResolvesAlike, resolve, resolve]
    refine (resolve_follows base h).andThen fun y a y' a' hy => ?_
    obtain ⟨rfl, rfl⟩ := hy
    exact conclude_follows (fun _ => rfl) fun _ hty => hty
  | .record p fields slot, h => by
    rw [names] at h
    rw [ResolvesAlike, resolve, resolve]
    cases checkFieldNames [] fields with
    | error e => exact .of_fail
    | ok _ =>
      refine (resolveFields_follows fields h).andThen fun y a y' a' hy => ?_
      obtain ⟨rfl, rfl⟩ := hy
      exact conclude_follows (fun _ => rfl) fun _ hty => hty

theorem resolveFields_follows : ∀ fields : List (Binding TypeExpr),
    (∀ n ∈ namesOf fields, ∀ ty, t.find? scope n = some (.type ty) →
      t'.find? scope n = some (.type ty)) →
    (resolveFields t scope fields).Follows (fun y a y' a' => y' = y ∧ a' = a)
      (resolveFields t' scope fields)
  | [], _ => by
    rw [resolveFields, resolveFields]
    exact fun a ha => ⟨a, ha, rfl, rfl⟩
  | ⟨p, name, type⟩ :: fields, h => by
    rw [namesOf, List.forall_mem_append] at h
    rw [resolveFields, resolveFields]
    refine (resolve_follows type h.1).andThen fun y a y' a' hy => ?_
    obtain ⟨rfl, rfl⟩ := hy
    refine .map (.mapTree ((resolveFields_follows fields h.2).mono fun y b y' b' hy => ?_))
    obtain ⟨rfl, rfl⟩ := hy
    exact ⟨rfl, rfl⟩

end

end TypeExpr

/-! ## Declarations of each kind -/

/-- If the first table takes the entry under one name, the second one takes it under the other name.
The tables that come of it are related by `L`. -/
def EntersAlike (L : SymbolTable → SymbolTable → Prop) (scope : ScopeId) (name name' : String)
    (e : Entry) (t t' : SymbolTable) : Prop :=
  ∀ u, t.enter? scope name e = some u → ∃ u', t'.enter? scope name' e = some u' ∧ L u u'

theorem EntersAlike.enterNew {name name' : String} {e : Entry}
    (h : EntersAlike L scope name name' e t t') {p : Position} {cause : SemanticError}
    {u : SymbolTable}
    (hu : enterNew t scope name e p cause = .ok u) (p' : Position) (cause' : SemanticError) :
    ∃ u', enterNew t' scope name' e p' cause' = .ok u' ∧ L u u' := by
  unfold Spl.enterNew at hu ⊢
  cases he : t.enter? scope name e with
  | none => rw [he] at hu; cases hu
  | some w =>
    rw [he] at hu
    cases hu
    obtain ⟨u', hu', hL⟩ := h u he
    rw [hu']
    exact ⟨u', rfl, hL⟩

theorem enterParameter_follows {R : ParamDecl → ParamDecl → Prop} {d d' : ParamDecl}
    (href : d'.isReference = d.isReference)
    (hres : d.type.ResolvesAlike T scope t t' d'.type)
    (henter : ∀ v, EntersAlike L scope d.name d'.name (.var v) t t')
    (hT : ∀ e e', T e e' → R { d with type := e } { d' with type := e' }) :
    (enterParameter scope t d).Follows (fun y a y' a' => L y.1 y'.1 ∧ R y.2 y'.2 ∧ a' = a)
      (enterParameter scope t' d') := by
  unfold enterParameter
  refine Visit.Follows.andThen hres fun e ty e' ty' he => ?_
  obtain ⟨he, rfl⟩ := he
  dsimp only
  rw [href]
  by_cases hagg : ty'.isAggregate ∧ ¬d.isReference
  · rw [if_pos hagg]
    exact .of_fail
  · rw [if_neg hagg, if_neg hagg]
    cases hu : enterNew t scope d.name (.var { type := ty', isReference := d.isReference })
      d.position (.redeclaredAsParameter d.name) with
    | error f => exact .of_fail
    | ok u =>
      obtain ⟨u', hu', hL⟩ := (henter _).enterNew hu d'.position (.redeclaredAsParameter d'.name)
      rw [hu']
      have hT := hT e e' he
      rw [href] at hT
      exact fun a ha => ⟨a, ha, hL, hT, rfl⟩

/-- Where a variable is declared matters only for the report of a failure. -/
theorem addLocalSize_of_ok {procedure : String} {p : Position} {before size total : Word}
    (h : addLocalSize procedure p before size = .ok total) (procedure' : String) (p' : Position) :
    addLocalSize procedure' p' before size = .ok total := by
  unfold addLocalSize at h ⊢
  cases hs : before.sum size with
  | error f => rw [hs] at h; cases h
  | ok n =>
    rw [hs] at h
    dsimp only at h ⊢
    cases hl : n.sum linkageBytes with
    | error f => rw [hl] at h; cases h
    | ok m => rw [hl] at h; exact h

theorem enterLocal_follows {R : Binding TypeExpr → Binding TypeExpr → Prop}
    {d d' : Binding TypeExpr} {procedure procedure' : String} {before : Word}
    (hres : d.type.ResolvesAlike T scope t t' d'.type)
    (henter : ∀ v, EntersAlike L scope d.name d'.name (.var v) t t')
    (hT : ∀ e e', T e e' → R { d with type := e } { d' with type := e' }) :
    (enterLocal procedure scope (t, before) d).Follows
      (fun y a y' a' => (L y.1.1 y'.1.1 ∧ y'.1.2 = y.1.2) ∧ R y.2 y'.2 ∧ a' = a)
      (enterLocal procedure' scope (t', before) d') := by
  unfold enterLocal
  refine Visit.Follows.andThen hres fun e ty e' ty' he => ?_
  obtain ⟨he, rfl⟩ := he
  dsimp only
  cases ty'.byteSize with
  | error f => exact .of_fail
  | ok size =>
    cases hu : enterNew t scope d.name (.var { type := ty', isReference := false }) d.position
      (.redeclaredAsVariable d.name) with
    | error f => exact .of_fail
    | ok u =>
      obtain ⟨u', hu', hL⟩ := (henter _).enterNew hu d'.position (.redeclaredAsVariable d'.name)
      rw [hu']
      dsimp only [bind, Except.bind, liftM, monadLift, MonadLift.monadLift, Except.mapError]
      cases htotal : addLocalSize procedure d.position before size with
      | error f => exact .of_fail
      | ok total =>
        rw [addLocalSize_of_ok htotal procedure' d'.position]
        exact fun a ha => ⟨a, ha, ⟨hL, rfl⟩, hT e e' he, rfl⟩

/-- A type expression is resolved before the name is entered, and the name must be new. -/
theorem enterType_follows {R : Binding TypeExpr → Binding TypeExpr → Prop}
    {d d' : Binding TypeExpr}
    (hnew : t.find? global d.name = none → t'.find? global d'.name = none)
    (hres : d.type.ResolvesAlike T global t t' d'.type)
    (henter : ∀ ty, EntersAlike L global d.name d'.name (.type ty) t t')
    (hT : ∀ e e', T e e' → R { d with type := e } { d' with type := e' }) :
    (enterType t d).Follows (fun y u y' u' => R y y' ∧ L u u') (enterType t' d') := by
  unfold enterType
  cases hd : t.find? global d.name with
  | some e => exact .of_fail
  | none =>
    rw [hnew hd, if_neg nofun, if_neg nofun]
    refine Visit.Follows.andThen hres fun e ty e' ty' he => ?_
    obtain ⟨he, rfl⟩ := he
    intro u hu
    obtain ⟨u', hu', hL⟩ := (henter ty').enterNew hu d'.position (.redeclaredAsType d'.name)
    exact ⟨u', hu', hT e e' he, hL⟩

/-- A procedure gets a local scope with the same number in both tables. The tables are related by
`L` while the scope is filled, and by `M` when the procedure has been entered. -/
theorem enterProcedure_follows {P : ParamDecl → ParamDecl → Prop}
    {B : Binding TypeExpr → Binding TypeExpr → Prop} {R : ProcDecl → ProcDecl → Prop}
    {d d' : ProcDecl} (hscope : t.newScope global = (scope, u₁))
    (hscope' : t'.newScope global = (scope, u₁'))
    (hparameters : (Visit.thread (enterParameter scope) u₁ d.parameters).Follows
      (fun y a y' a' => L y.1 y'.1 ∧ List.Forall₂ P y.2 y'.2 ∧ a' = a)
      (Visit.thread (enterParameter scope) u₁' d'.parameters))
    (hlocals : ∀ u', L (Visit.thread (enterParameter scope) u₁ d.parameters).tree.1 u' →
      (Visit.thread (enterLocal d.name scope)
          ((Visit.thread (enterParameter scope) u₁ d.parameters).tree.1, 0) d.locals).Follows
        (fun y a y' a' => (L y.1.1 y'.1.1 ∧ y'.1.2 = y.1.2) ∧ List.Forall₂ B y.2 y'.2 ∧ a' = a)
        (Visit.thread (enterLocal d'.name scope) (u', 0) d'.locals))
    (henter : ∀ u u' parameters, L u u' → EntersAlike M global d.name d'.name
      (.proc { localScope := scope, parameters }) u u')
    (hT : ∀ ps ps' ls ls', List.Forall₂ P ps ps' → List.Forall₂ B ls ls' →
      R { d with parameters := ps, locals := ls } { d' with parameters := ps', locals := ls' }) :
    (enterProcedure t d).Follows (fun y u y' u' => R y y' ∧ M u u') (enterProcedure t' d') := by
  unfold enterProcedure
  rw [hscope, hscope']
  refine hparameters.at_tree.andThen fun y vs y' vs' hy => ?_
  obtain ⟨⟨hL, hps, rfl⟩, rfl⟩ := hy
  refine (hlocals _ hL).andThen fun z _ z' _ hz => ?_
  obtain ⟨⟨u, n⟩, ls⟩ := z
  obtain ⟨⟨u', n'⟩, ls'⟩ := z'
  obtain ⟨⟨hL', -⟩, hls, -⟩ := hz
  intro w hw
  obtain ⟨w', hw', hM⟩ :=
    (henter _ _ vs' hL').enterNew hw d'.position (.redeclaredAsProcedure d'.name)
  exact ⟨w', hw', hT _ _ _ _ hps hls, hM⟩

/-- What is to be shown of a declaration follows from what is shown of its kind. -/
theorem enterDeclaration_follows {α : Type} {f f' : α → Decl} {v v' : SemanticVisit α SymbolTable}
    {R : Decl → Decl → Prop} {stop stop' : Decl → SymbolTable × Decl}
    (h : v.Follows (fun y u y' u' => R (f y) (f' y') ∧ L u u') v') :
    ((v.mapTree f).andThen stop fun d t => .pure (t, d) ()).Follows
      (fun y a y' a' => L y.1 y'.1 ∧ R y.2 y'.2 ∧ a' = a)
      ((v'.mapTree f').andThen stop' fun d t => .pure (t, d) ()) := by
  refine Visit.Follows.andThen (R := fun y u y' u' => R y y' ∧ L u u') (.mapTree h)
    fun y u y' u' hy => ?_
  obtain ⟨hT, hL⟩ := hy
  exact fun a ha => ⟨a, ha, hL, hT, rfl⟩

/-! ## The same declarations -/

/-- The second version of a scope has the entries of the first one. -/
def Scope.Keeps (Q : Scope → Scope → Prop) : Prop :=
  ∀ c c' n e, Q c c' → c.get? n = some e → c'.get? n = some e

/-- Where the first version of a scope takes a name, so does the second one. -/
structure Scope.Admits (Q : Scope → Scope → Prop) (n : String) : Prop where
  declares : ∀ c c', Q c c' → c.declares n = false → c'.declares n = false
  add : ∀ c c' e, Q c c' → c.declares n = false → Q (c.add n e) (c'.add n e)

namespace SymbolTable.Parallel

variable {s : ScopeId} {Q : Scope → Scope → Prop}

/-- What the first table declares globally, the second one does too. -/
theorem get?_global (h : Parallel s Q t t') (hK : s = global → Scope.Keeps Q) {n : String}
    {e : Entry} (he : (t.scope global).get? n = some e) : (t'.scope global).get? n = some e := by
  by_cases hs : s = global
  · subst hs
    exact hK rfl _ _ n e h.differs.versions he
  · rwa [h.differs.others global (Ne.symm hs)]

theorem find?_global (h : Parallel s Q t t') (n : String) :
    t'.find? global n = (t'.scope global).get? n :=
  SymbolTable.find?_global ((h.differs.enclosing_eq global).trans h.enclosing) n

/-- A global name that is free stays free. -/
theorem find?_global_eq_none (h : Parallel s Q t t') {n : String}
    (hA : s = global → Scope.Admits Q n) (hn : t.find? global n = none) :
    t'.find? global n = none := by
  rw [SymbolTable.find?_global h.enclosing] at hn
  rw [h.find?_global]
  by_cases hs : s = global
  · subst hs
    have hd := (hA rfl).declares _ _ h.differs.versions (by rw [Scope.declares, hn]; rfl)
    exact Option.not_isSome_iff_eq_none.1 (Bool.eq_false_iff.1 hd)
  · rwa [h.differs.others global (Ne.symm hs)]

/-- In another local scope, names stand for what they stand for in the first table. -/
theorem find?_of_ne (h : Parallel s Q t t') (hK : s = global → Scope.Keeps Q) (hne : scope ≠ s)
    (henc : (t.scope scope).enclosing = [global]) {n : String} {e : Entry}
    (he : t.find? scope n = some e) : t'.find? scope n = some e := by
  have henc' : (t'.scope scope).enclosing = [global] := (h.differs.enclosing_eq scope).trans henc
  rw [find?_of_enclosing henc] at he
  rw [find?_of_enclosing henc', h.differs.others scope hne]
  cases hown : (t.scope scope).get? n with
  | some e' => rwa [hown] at he
  | none =>
    rw [hown, Option.none_or] at he
    rw [Option.none_or]
    exact h.get?_global hK he

/-- A name is entered into the global scope. -/
theorem entersAlike_global (h : Parallel s Q t t') {n : String}
    (hA : s = global → Scope.Admits Q n) (e : Entry) :
    EntersAlike (Parallel s Q) global n n e t t' := by
  intro u hu
  by_cases hs : s = global
  · subst hs
    obtain ⟨hd, -⟩ := enter?_eq_some_iff.1 hu
    obtain ⟨u', hu', hdiff⟩ := h.differs.enter? ((hA rfl).declares _ _ h.differs.versions hd)
      ((hA rfl).add _ _ e h.differs.versions hd) hu
    exact ⟨u', hu', h.of_enter? hu hdiff⟩
  · obtain ⟨u', hu', hdiff⟩ := h.differs.enter?_of_ne (Ne.symm hs) hu
    exact ⟨u', hu', h.of_enter? hu hdiff⟩

end SymbolTable.Parallel

/-- The tables are parallel while the local scope `scope` is filled. -/
structure Filling (s : ScopeId) (Q : Scope → Scope → Prop) (scope : ScopeId)
    (t t' : SymbolTable) : Prop extends Parallel s Q t t' where
  inside : (t.scope scope).enclosing = [global]

section
variable {s : ScopeId} {Q : Scope → Scope → Prop}

theorem Filling.of_enter? (h : Filling s Q scope t t') {n : String} {e : Entry} {u u' : SymbolTable}
    (hu : t.enter? scope n e = some u) (hd : DiffersAt s Q u u') : Filling s Q scope u u' :=
  ⟨h.toParallel.of_enter? hu hd, (enclosing_enter? hu scope).trans h.inside⟩

/-- A new local scope is filled. -/
theorem SymbolTable.Parallel.filling (h : Parallel s Q t t')
    (hscope : t.newScope global = (scope, u₁)) :
    ∃ u₁', t'.newScope global = (scope, u₁') ∧ scope ≠ s ∧ Filling s Q scope u₁ u₁' := by
  obtain ⟨hid, -⟩ := h.differs.newScope global
  have hnew := h.newScope
  have hself := scope_newScope_self t global
  have hfresh : ¬t.HasScope (t.newScope global).1 := Nat.lt_irrefl _
  rw [hscope] at hid hnew hself hfresh
  refine ⟨(t'.newScope global).2, Prod.ext hid rfl, fun hs => hfresh (hs ▸ h.differs.hasScope),
    hnew, ?_⟩
  rw [hself, chain, h.enclosing]

/-- A name is entered into another local scope. -/
theorem Filling.entersAlike (h : Filling s Q scope t t') (hne : scope ≠ s) (n : String)
    (e : Entry) : EntersAlike (Filling s Q scope) scope n n e t t' := by
  intro u hu
  obtain ⟨u', hu', hdiff⟩ := h.differs.enter?_of_ne hne hu
  exact ⟨u', hu', h.of_enter? hu hdiff⟩

variable (hK : s = global → Scope.Keeps Q)
include hK

/-- A type expression is resolved to the same type in another local scope. -/
theorem Filling.resolvesAlike (h : Filling s Q scope t t') (hne : scope ≠ s) (e : TypeExpr) :
    e.ResolvesAlike (fun y y' => y' = y) scope t t' e :=
  e.resolve_follows fun _ _ _ he => h.toParallel.find?_of_ne hK hne h.inside he

theorem enterProcedure_parallel (h : Parallel s Q t t') {d : ProcDecl}
    (hA : s = global → Scope.Admits Q d.name) :
    (enterProcedure t d).Follows (fun y u y' u' => y' = y ∧ Parallel s Q u u')
      (enterProcedure t' d) := by
  rcases hscope : t.newScope global with ⟨scope, u₁⟩
  obtain ⟨u₁', hscope', hne, hfill⟩ := h.filling hscope
  refine enterProcedure_follows (P := fun b b' => b' = b) (B := fun b b' => b' = b)
    (L := Filling s Q scope) hscope hscope' ?_ (fun u' hu => ?_)
    (fun u u' _ hu => hu.toParallel.entersAlike_global hA _) fun ps ps' ls ls' hps hls => ?_
  · refine .thread_along (R := fun _ b b' => b' = b) (fun u u' b b' hu hb => ?_) hfill
      (.refl (R := fun _ b b' => b' = b) (fun _ _ _ => rfl) u₁)
    subst hb
    exact enterParameter_follows (R := fun y y' => y' = y) rfl (hu.resolvesAlike hK hne b'.type)
      (fun v => hu.entersAlike hne b'.name _) fun e e' he => by rw [he]
  · refine .thread_along (R := fun _ b b' => b' = b)
      (L := fun (x x' : SymbolTable × Word) => Filling s Q scope x.1 x'.1 ∧ x'.2 = x.2)
      (fun x x' b b' hx hb => ?_) ⟨hu, rfl⟩
      (.refl (R := fun _ b b' => b' = b) (fun _ _ _ => rfl) _)
    subst hb
    obtain ⟨u, before⟩ := x
    obtain ⟨u', before'⟩ := x'
    obtain ⟨hu, rfl⟩ := hx
    exact enterLocal_follows (R := fun y y' => y' = y) (hu.resolvesAlike hK hne b'.type)
      (fun v => hu.entersAlike hne b'.name _) fun e e' he => by rw [he]
  · rw [Visit.eq_of_forall₂ hps, Visit.eq_of_forall₂ hls]

theorem enterType_parallel (h : Parallel s Q t t') {d : Binding TypeExpr}
    (hA : s = global → Scope.Admits Q d.name) :
    (enterType t d).Follows (fun y u y' u' => y' = y ∧ Parallel s Q u u') (enterType t' d) := by
  refine enterType_follows (R := fun y y' => y' = y) (h.find?_global_eq_none hA)
    (d.type.resolve_follows fun n _ ty he => ?_) (fun ty => h.entersAlike_global hA _)
    fun e e' he => by rw [he]
  rw [SymbolTable.find?_global h.enclosing] at he
  rw [h.find?_global]
  exact h.get?_global hK he

/-- A declaration is entered into parallel tables alike. -/
theorem enterDeclaration_parallel (h : Parallel s Q t t') {d : Decl}
    (hA : s = global → Scope.Admits Q d.name) :
    (enterDeclaration t d).Follows
      (fun y a y' a' => Parallel s Q y.1 y'.1 ∧ y'.2 = y.2 ∧ a' = a) (enterDeclaration t' d) := by
  unfold enterDeclaration
  cases d with
  | type d =>
    exact enterDeclaration_follows (R := fun y y' => y' = y)
      ((enterType_parallel hK h hA).mono fun y u y' u' hy => ⟨by rw [hy.1], hy.2⟩)
  | procedure d =>
    exact enterDeclaration_follows (R := fun y y' => y' = y)
      ((enterProcedure_parallel hK h hA).mono fun y u y' u' hy => ⟨by rw [hy.1], hy.2⟩)

/-- Declarations are entered into parallel tables alike. -/
theorem enterDeclarations_parallel (h : Parallel s Q t t') (ds : List Decl)
    (hA : ∀ d ∈ ds, s = global → Scope.Admits Q d.name) :
    (Visit.thread enterDeclaration t ds).Follows
      (fun y a y' a' => Parallel s Q y.1 y'.1 ∧ y'.2 = y.2 ∧ a' = a)
      (Visit.thread enterDeclaration t' ds) := by
  refine (Visit.Follows.thread_along (R := fun _ d d' => d' = d ∧
    (s = global → Scope.Admits Q d.name)) (fun u u' d d' hu hd => ?_) h
    (.refl (fun d hd _ => ⟨rfl, hA d hd⟩) t)).mono
    fun y a y' a' hy => ⟨hy.1, Visit.eq_of_forall₂ hy.2.1, hy.2.2⟩
  obtain ⟨rfl, hd⟩ := hd
  exact enterDeclaration_parallel hK hu hd

end

/-- What holds of the global scope and still does when a declared name is added to it, holds of the
global scope when the declarations have been entered. -/
theorem enterDeclarations_keeps {I : Scope → Prop} {ds ds' : List Decl} {u : SymbolTable}
    {as : List Unit} (h : Visit.thread enterDeclaration t ds = ⟨(u, ds'), .ok as⟩)
    (hI : ∀ d ∈ ds, ∀ c e, I c → c.declares d.name = false → I (c.add d.name e))
    (hg : t.HasScope global) (henc : (t.scope global).enclosing = []) (ht : I (t.scope global)) :
    u.HasScope global ∧ (u.scope global).enclosing = [] ∧ I (u.scope global) := by
  -- The table is compared with itself.
  have hpar : Parallel global (fun c c' => c' = c ∧ I c) t t :=
    ⟨⟨rfl, hg, fun _ _ => rfl, rfl, rfl, ht⟩, hg, henc⟩
  have hfollows := enterDeclarations_parallel (fun _ c c' n e hc he => by rw [hc.1, he]) hpar ds
    fun d hd _ => ⟨fun c c' hc hd => by rw [hc.1, hd],
      fun c c' e hc hfree => ⟨by rw [hc.1], hI d hd c e hc.2 hfree⟩⟩
  rw [h] at hfollows
  obtain ⟨_, -, hu, -⟩ := hfollows as rfl
  exact ⟨hu.hasScope, hu.enclosing, hu.differs.versions.2⟩

/-! ## Programs -/

/-- The entry point is the first declaration of its name, which is a procedure without
parameters. -/
theorem checkEntry_eq_ok_iff {entry : String} {p : Program} :
    checkEntry entry p = .ok () ↔
      ∃ d, p.declarations.find? (·.name = entry) = some (.procedure d) ∧ d.parameters = [] := by
  unfold checkEntry
  cases p.declarations.find? (·.name = entry) with
  | none =>
    refine ⟨nofun, ?_⟩
    rintro ⟨_, ⟨⟩, _⟩
  | some d =>
    cases d with
    | type d =>
      refine ⟨nofun, ?_⟩
      rintro ⟨_, ⟨⟩, _⟩
    | procedure d =>
      dsimp only
      by_cases hd : d.parameters = []
      · rw [if_pos (List.isEmpty_iff.2 hd)]
        exact ⟨fun _ => ⟨d, rfl, hd⟩, fun _ => rfl⟩
      · rw [if_neg (mt List.isEmpty_iff.1 hd)]
        refine ⟨nofun, ?_⟩
        rintro ⟨_, ⟨⟩, hd'⟩
        exact absurd hd' hd

/-- The declarations of a program are accepted if each of them is and the entry point is. -/
theorem enterDeclarations_eq_ok_iff {entry : String} {p q : Program} :
    enterDeclarations entry p = ⟨q, .ok t⟩ ↔ ∃ ds as,
      Visit.thread enterDeclaration .predefined p.declarations = ⟨(t, ds), .ok as⟩ ∧
        checkEntry entry p = .ok () ∧ q = { p with declarations := ds } := by
  unfold enterDeclarations
  rcases h : Visit.thread enterDeclaration .predefined p.declarations with ⟨⟨u, ds⟩, x⟩
  cases x with
  | error e =>
    refine ⟨nofun, ?_⟩
    rintro ⟨_, _, ⟨⟩, _⟩
  | ok as =>
    dsimp only [Visit.andThen]
    cases hentry : checkEntry entry p with
    | error e =>
      refine ⟨nofun, ?_⟩
      rintro ⟨_, _, _, ⟨⟩, _⟩
    | ok _ =>
      constructor
      · rintro ⟨⟩
        exact ⟨ds, as, rfl, rfl, rfl⟩
      · rintro ⟨_, _, ⟨⟩, -, rfl⟩
        rfl

end Spl
