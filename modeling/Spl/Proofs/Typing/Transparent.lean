import Spl.Proofs.Typing.Declarations
import Spl.Proofs.Typing.Entering

/-!
# Type expressions that denote the same type

Some type expressions of a program are replaced by others that denote the same types where they
stand, or a declaration of a type is inserted whose name is new. The declarations are entered alike:
the tables are the same, but for the inserted name.

* `TypeExpr.Interchanged`, `Decl.Interchanged`, `Program.SameTypes`: such changes of a program.
* `ProcDecl.Retyped`, `Decl.Retyped`: what they leave alone in declarations.
* `enterDeclarations_interchanged`: replaced type expressions.
* `Scope.Inserted`, `enterType_inserted`: an inserted declaration.
-/

namespace Spl

open SymbolTable Visit

variable {t t' : SymbolTable} {scope : ScopeId}

/-! ## Changes of a program -/

namespace TypeExpr

mutual

/-- In some parts, the second expression has others that denote the same types at the scope. -/
inductive Interchanged (t : SymbolTable) (scope : ScopeId) : TypeExpr → TypeExpr → Prop
  | refl (e : TypeExpr) : Interchanged t scope e e
  | replace {e e' : TypeExpr} {ty : Ty} : (e.resolve t scope).answer = .ok ty →
      (e'.resolve t scope).answer = .ok ty → Interchanged t scope e e'
  | array {p : Position} {size : UInt32} {base base' : TypeExpr} {slot : TypeSlot} :
      Interchanged t scope base base' →
      Interchanged t scope (.array p size base slot) (.array p size base' slot)
  | record {p : Position} {fields fields' : List (Binding TypeExpr)} {slot : TypeSlot} :
      FieldsInterchanged t scope fields fields' →
      Interchanged t scope (.record p fields slot) (.record p fields' slot)

/-- The same for the types of fields. -/
inductive FieldsInterchanged (t : SymbolTable) (scope : ScopeId) :
    List (Binding TypeExpr) → List (Binding TypeExpr) → Prop
  | nil : FieldsInterchanged t scope [] []
  | cons {p : Position} {name : String} {e e' : TypeExpr}
      {fields fields' : List (Binding TypeExpr)} :
      Interchanged t scope e e' → FieldsInterchanged t scope fields fields' →
      FieldsInterchanged t scope (⟨p, name, e⟩ :: fields) (⟨p, name, e'⟩ :: fields')

end

end TypeExpr

/-- The type expression of a declared name is interchanged. -/
def Binding.Interchanged (t : SymbolTable) (scope : ScopeId) (b b' : Binding TypeExpr) : Prop :=
  ∃ e', b.type.Interchanged t scope e' ∧ b' = { b with type := e' }

/-- The type expression of a parameter is interchanged. -/
def ParamDecl.Interchanged (t : SymbolTable) (scope : ScopeId) (b b' : ParamDecl) : Prop :=
  ∃ e', b.type.Interchanged t scope e' ∧ b' = { b with type := e' }

/-- The type expressions of a procedure are interchanged, each at its place: parameters and local
variables are entered one after the other into the local scope. -/
structure ProcDecl.Interchanged (t : SymbolTable) (scope : ScopeId) (d : ProcDecl)
    (parameters : List ParamDecl) (locals : List (Binding TypeExpr)) : Prop where
  parameters : Along (enterParameter scope) (ParamDecl.Interchanged · scope) t d.parameters
    parameters
  locals : Along (enterLocal d.name scope) (fun x => Binding.Interchanged x.1 scope)
    ((Visit.thread (enterParameter scope) t d.parameters).tree.1, 0) d.locals locals

/-- The type expressions of a declaration are interchanged. -/
inductive Decl.Interchanged (t : SymbolTable) : Decl → Decl → Prop
  | type {b b' : Binding TypeExpr} : b.Interchanged t global b' →
      Decl.Interchanged t (.type b) (.type b')
  | procedure {d : ProcDecl} {parameters : List ParamDecl} {locals : List (Binding TypeExpr)} :
      d.Interchanged (t.newScope global).2 (t.newScope global).1 parameters locals →
      Decl.Interchanged t (.procedure d) (.procedure { d with parameters, locals })

/-- A declaration stands for itself. -/
theorem Decl.Interchanged.refl (t : SymbolTable) : ∀ d : Decl, d.Interchanged t d
  | .type b => .type ⟨b.type, .refl _, rfl⟩
  | .procedure _ => .procedure ⟨Along.refl (fun b _ _ => ⟨b.type, .refl _, rfl⟩) _,
      Along.refl (fun b _ _ => ⟨b.type, .refl _, rfl⟩) _⟩

/-- Type expressions of the program are replaced by others that denote the same types at their
places, or a type is declared under a new name. -/
inductive Program.SameTypes : Program → Program → Prop
  | replace {p : Program} {ds : List Decl} :
      Along enterDeclaration Decl.Interchanged .predefined p.declarations ds →
      SameTypes p { p with declarations := ds }
  | insert {p : Program} {before after : List Decl} {b : Binding TypeExpr} {ty : Ty} :
      p.declarations = before ++ after → (∀ d ∈ p.declarations, d.name ≠ b.name) →
      predefined.find? global b.name = none →
      (b.type.resolve (Visit.thread enterDeclaration .predefined before).tree.1 global).answer =
        .ok ty →
      SameTypes p { p with declarations := before ++ .type b :: after }

/-! ## Replaced type expressions -/

namespace TypeExpr

theorem FieldsInterchanged.checkFieldNames_eq {fields fields' : List (Binding TypeExpr)} :
    FieldsInterchanged t scope fields fields' → ∀ seen : List String,
      checkFieldNames seen fields' = checkFieldNames seen fields
  | .nil, _ => rfl
  | .cons _ h, seen => by
    rw [checkFieldNames, checkFieldNames, h.checkFieldNames_eq]

mutual

/-- Interchanged expressions are resolved to the same type. -/
theorem Interchanged.resolvesAlike {e e' : TypeExpr} :
    Interchanged t scope e e' → e.ResolvesAlike (fun _ _ => True) scope t t e'
  | .refl e => fun ty hty => ⟨ty, hty, trivial, rfl⟩
  | .replace h h' => fun ty hty => ⟨_, h', trivial, Except.ok.inj (h.symm.trans hty)⟩
  | .array h => by
    rw [ResolvesAlike, resolve, resolve]
    refine Follows.andThen h.resolvesAlike fun y a y' a' hy => ?_
    obtain ⟨-, rfl⟩ := hy
    exact conclude_follows (fun _ => trivial) fun _ hty => hty
  | @Interchanged.record _ _ p fields fields' slot h => by
    rw [ResolvesAlike, resolve, resolve, h.checkFieldNames_eq]
    cases checkFieldNames [] fields with
    | error f => exact .of_fail
    | ok _ =>
      refine h.resolvesAlike.andThen fun y a y' a' hy => ?_
      subst hy
      exact conclude_follows (fun _ => trivial) fun _ hty => hty

theorem FieldsInterchanged.resolvesAlike {fields fields' : List (Binding TypeExpr)} :
    FieldsInterchanged t scope fields fields' →
      (resolveFields t scope fields).Follows (fun _ a _ a' => a' = a)
        (resolveFields t scope fields')
  | .nil => fun a ha => ⟨a, ha, rfl⟩
  | .cons h hs => by
    rw [resolveFields, resolveFields]
    refine Follows.andThen h.resolvesAlike fun y a y' a' hy => ?_
    obtain ⟨-, rfl⟩ := hy
    refine .map (.mapTree (hs.resolvesAlike.mono fun y b y' b' hb => ?_))
    rw [hb]

end

end TypeExpr

/-! ### Declarations -/

/-- The second procedure is the first one but for type expressions. -/
structure ProcDecl.Retyped (d d' : ProcDecl) : Prop where
  name : d'.name = d.name
  position : d'.position = d.position
  parameters : d'.parameters.map (·.name) = d.parameters.map (·.name)
  locals : d'.locals.map (·.name) = d.locals.map (·.name)
  body : d'.body = d.body

/-- The second declaration is the first one but for type expressions. -/
inductive Decl.Retyped : Decl → Decl → Prop
  | type {b b' : Binding TypeExpr} : b'.name = b.name → Retyped (.type b) (.type b')
  | procedure {d d' : ProcDecl} : d.Retyped d' → Retyped (.procedure d) (.procedure d')

theorem Decl.Retyped.refl : ∀ d : Decl, d.Retyped d
  | .type _ => .type rfl
  | .procedure _ => .procedure ⟨rfl, rfl, rfl, rfl, rfl⟩

/-- Declarations of the same names. -/
theorem map_name_eq {τ : Type} {name : τ → String} {bs bs' : List τ}
    (h : List.Forall₂ (fun b b' => name b' = name b) bs bs') : bs'.map name = bs.map name :=
  eq_of_forall₂ (List.forall₂_map_left_iff.2 (List.forall₂_map_right_iff.2 h))

theorem entersAlike_refl (n : String) (e : Entry) (t : SymbolTable) :
    EntersAlike (fun u u' => u' = u) scope n n e t t := fun u hu => ⟨u, hu, rfl⟩

theorem enterParameters_interchanged {ps ps' : List ParamDecl}
    (h : Along (enterParameter scope) (ParamDecl.Interchanged · scope) t ps ps') :
    (Visit.thread (enterParameter scope) t ps).Follows (fun y a y' a' => y'.1 = y.1 ∧
      List.Forall₂ (fun b b' => b'.name = b.name) y.2 y'.2 ∧ a' = a)
      (Visit.thread (enterParameter scope) t ps') := by
  refine .thread_along (L := fun u u' => u' = u) (fun u u' b b' hu hb => ?_) rfl h
  subst hu
  obtain ⟨e', he, rfl⟩ := hb
  have href : ({ b with type := e' } : ParamDecl).isReference = b.isReference := rfl
  exact enterParameter_follows (R := fun b b' => b'.name = b.name) href he.resolvesAlike
    (fun _ => entersAlike_refl _ _ _) fun _ _ _ => rfl

theorem enterLocals_interchanged {ls ls' : List (Binding TypeExpr)} {procedure : String}
    {before : Word} (h : Along (enterLocal procedure scope)
      (fun x => Binding.Interchanged x.1 scope) (t, before) ls ls') :
    (Visit.thread (enterLocal procedure scope) (t, before) ls).Follows (fun y a y' a' =>
      (y'.1.1 = y.1.1 ∧ y'.1.2 = y.1.2) ∧ List.Forall₂ (fun b b' => b'.name = b.name) y.2 y'.2 ∧
        a' = a) (Visit.thread (enterLocal procedure scope) (t, before) ls') := by
  refine .thread_along (L := fun x x' : SymbolTable × Word => x'.1 = x.1 ∧ x'.2 = x.2)
    (fun x x' b b' hx hb => ?_) ⟨rfl, rfl⟩ h
  obtain rfl : x' = x := Prod.ext hx.1 hx.2
  obtain ⟨e', he, rfl⟩ := hb
  exact enterLocal_follows (R := fun b b' => b'.name = b.name) (L := fun u u' => u' = u)
    he.resolvesAlike (fun _ => entersAlike_refl _ _ _) fun _ _ _ => rfl

/-- A declaration whose type expressions are interchanged is entered alike. -/
theorem enterDeclaration_interchanged {d d' : Decl} (h : d.Interchanged t d') :
    (enterDeclaration t d).Follows (fun y a y' a' => y'.1 = y.1 ∧ y.2.Retyped y'.2 ∧ a' = a)
      (enterDeclaration t d') := by
  unfold enterDeclaration
  cases h with
  | type h =>
    obtain ⟨e', he, rfl⟩ := h
    exact enterDeclaration_follows (L := fun u u' => u' = u) (enterType_follows
      (R := fun b b' => Decl.Retyped (.type b) (.type b')) (fun hn => hn) he.resolvesAlike
      (fun _ => entersAlike_refl _ _ _) fun _ _ _ => .type rfl)
  | @procedure d ps ls h =>
    refine enterDeclaration_follows (L := fun u u' => u' = u) (enterProcedure_follows
      (R := fun d d' => Decl.Retyped (.procedure d) (.procedure d')) (L := fun u u' => u' = u)
      (P := fun b b' => b'.name = b.name) (B := fun b b' => b'.name = b.name) rfl rfl
      (enterParameters_interchanged h.parameters) (fun u' hu => ?_) (fun u u' _ hu => ?_)
      fun ps ps' ls ls' hps hls => ?_)
    · rw [hu]
      exact enterLocals_interchanged h.locals
    · rw [hu]
      exact entersAlike_refl _ _ _
    · exact .procedure ⟨rfl, rfl, map_name_eq hps, map_name_eq hls, rfl⟩

/-- Declarations whose type expressions are interchanged are entered alike. -/
theorem enterDeclarations_interchanged {ds ds' : List Decl}
    (h : Along enterDeclaration Decl.Interchanged t ds ds') :
    (Visit.thread enterDeclaration t ds).Follows
      (fun y a y' a' => y'.1 = y.1 ∧ List.Forall₂ Decl.Retyped y.2 y'.2 ∧ a' = a)
      (Visit.thread enterDeclaration t ds') := by
  refine .thread_along (L := fun u u' => u' = u) (fun u u' d d' hu hd => ?_) rfl h
  subst hu
  exact enterDeclaration_interchanged hd

/-- Interchanging leaves all else alone. -/
theorem Decl.Interchanged.retyped {d d' : Decl} (h : d.Interchanged t d') : d.Retyped d' := by
  cases h with
  | type h =>
    obtain ⟨e', -, rfl⟩ := h
    exact .type rfl
  | procedure h =>
    refine .procedure ⟨rfl, rfl, map_name_eq (h.parameters.forall₂ fun _ _ _ hb => ?_),
      map_name_eq (h.locals.forall₂ fun _ _ _ hb => ?_), rfl⟩
    · obtain ⟨e', -, rfl⟩ := hb
      rfl
    · obtain ⟨e', -, rfl⟩ := hb
      rfl

/-- The bodies stay as they are. -/
theorem Decl.Retyped.map_bodies {ds ds' : List Decl} (h : List.Forall₂ Decl.Retyped ds ds') :
    (ds'.filterMap Decl.procedure?).map (fun d => (d.name, d.body)) =
      (ds.filterMap Decl.procedure?).map fun d => (d.name, d.body) := by
  induction h with
  | nil => rfl
  | cons hd _ ih =>
    cases hd with
    | type _ => exact ih
    | procedure hd => exact congrArg₂ List.cons (Prod.ext hd.name hd.body) ih

theorem Decl.Retyped.name_eq {d d' : Decl} (h : d.Retyped d') : d'.name = d.name := by
  cases h with
  | type h => exact h
  | procedure h => exact h.name

theorem Decl.Retyped.find? {ds ds' : List Decl} (h : List.Forall₂ Decl.Retyped ds ds') {n : String}
    {d : ProcDecl} (hd : ds.find? (·.name = n) = some (.procedure d)) :
    ∃ d', ds'.find? (·.name = n) = some (.procedure d') ∧ d.Retyped d' := by
  induction h with
  | nil => cases hd
  | @cons x x' xs xs' hx _ ih =>
    rw [List.find?_cons] at hd ⊢
    rw [hx.name_eq]
    by_cases hn : x.name = n
    · rw [decide_eq_true hn] at hd ⊢
      cases hd
      cases hx with
      | procedure hx => exact ⟨_, rfl, hx⟩
    · rw [decide_eq_false hn] at hd ⊢
      exact ih hd

/-- The entry point is still a procedure without parameters. -/
theorem checkEntry_retyped {entry : String} {p : Program} {ds : List Decl}
    (hds : List.Forall₂ Decl.Retyped p.declarations ds) (h : checkEntry entry p = .ok ()) :
    checkEntry entry { p with declarations := ds } = .ok () := by
  obtain ⟨d, hd, hparameters⟩ := checkEntry_eq_ok_iff.1 h
  obtain ⟨d', hd', hdd'⟩ := Decl.Retyped.find? hds hd
  refine checkEntry_eq_ok_iff.2 ⟨d', hd', ?_⟩
  have hnames := hdd'.parameters
  rw [hparameters] at hnames
  exact List.map_eq_nil_iff.1 hnames

/-! ## An inserted declaration -/

/-- The second scope has one more entry, a type under a name that the first one does not have. -/
structure Scope.Inserted (name : String) (ty : Ty) (c c' : Scope) : Prop where
  entries : ∃ xs ys, c.entries = xs ++ ys ∧ c'.entries = xs ++ (name, .type ty) :: ys
  fresh : c.get? name = none

namespace Scope.Inserted

variable {name n : String} {ty : Ty} {c c' : Scope}

theorem get?_eq_ite (h : Inserted name ty c c') (n : String) :
    c'.get? n = if n = name then some (.type ty) else c.get? n := by
  obtain ⟨⟨xs, ys, hc, hc'⟩, hfresh⟩ := h
  rw [get?, hc] at hfresh
  rw [get?, get?, hc, hc', List.lookup_append, List.lookup_append, lookup_cons_eq_ite]
  rw [List.lookup_append, Option.or_eq_none_iff] at hfresh
  by_cases hn : n = name
  · rw [if_pos hn, if_pos hn, hn, hfresh.1]
    rfl
  · rw [if_neg hn, if_neg hn]

/-- The entry is the last one of the global scope. -/
theorem of_add (hfresh : c.get? name = none) : Inserted name ty c (c.add name (.type ty)) :=
  ⟨⟨c.entries, [], (List.append_nil _).symm, rfl⟩, hfresh⟩

/-- Another name is added to both scopes. -/
theorem add (h : Inserted name ty c c') (hn : n ≠ name) (e : Entry) :
    Inserted name ty (c.add n e) (c'.add n e) := by
  obtain ⟨⟨xs, ys, hc, hc'⟩, hfresh⟩ := h
  refine ⟨⟨xs, ys ++ [(n, e)], ?_, ?_⟩, ?_⟩
  · rw [Scope.add, hc, List.append_assoc]
  · rw [Scope.add, hc', List.append_assoc, List.cons_append]
  · rw [get?_add, hfresh, if_neg (Ne.symm hn)]
    rfl

/-- Entries are changed in both scopes, and types are left alone. -/
theorem update (h : Inserted name ty c c') {f : Entry → Entry} (hf : f (.type ty) = .type ty) :
    Inserted name ty (c.update n f) (c'.update n f) := by
  obtain ⟨⟨xs, ys, hc, hc'⟩, hfresh⟩ := h
  refine ⟨⟨_, _, by rw [Scope.update, hc, List.map_append], ?_⟩, ?_⟩
  · rw [Scope.update, hc', List.map_append, List.map_cons]
    split
    · rw [hf]
    · rfl
  · rw [get?_update, hfresh]
    split <;> rfl

theorem keeps : Keeps (Inserted name ty) := by
  intro c c' n e h he
  rw [h.get?_eq_ite, if_neg, he]
  rintro rfl
  rw [h.fresh] at he
  cases he

theorem admits (hn : n ≠ name) : Admits (Inserted name ty) n where
  declares c c' h hd := by rwa [declares, h.get?_eq_ite, if_neg hn]
  add c c' e h _ := h.add hn e

/-- The inserted type is no procedure. -/
theorem sparesProcedures : SparesProcedures (Inserted name ty) where
  proc? c c' h n := by
    rw [h.get?_eq_ite]
    split
    · next hn => rw [hn, h.fresh]; rfl
    · rfl
  mapProcedure c c' h n f := h.update rfl

/-- The inserted type is no variable. -/
theorem matches_self (n : String) : Matches (Inserted name ty) n n where
  var? c c' h := by
    rw [h.get?_eq_ite]
    split
    · next hn => rw [hn, h.fresh]; rfl
    · rfl
  mapVariable c c' h f := h.update rfl

end Scope.Inserted

section
variable {b : Binding TypeExpr} {ty : Ty}

/-- A type under a new name is entered. -/
theorem enterDeclaration_inserted (hg : t.HasScope global)
    (henc : (t.scope global).enclosing = []) (hfresh : (t.scope global).get? b.name = none)
    (hres : (b.type.resolve t global).answer = .ok ty) :
    ∃ b' u, enterDeclaration t (.type b) = ⟨(u, .type b'), .ok ()⟩ ∧
      Parallel global (Scope.Inserted b.name ty) t u := by
  have hd : (t.scope global).declares b.name = false := by
    rw [Scope.declares, hfresh]
    rfl
  have henter : t.enter? global b.name (.type ty) =
      some (t.modifyScope global (·.add b.name (.type ty))) := enter?_eq_some_iff.2 ⟨hd, rfl⟩
  have hfind : t.find? global b.name = none := by rw [find?_global henc, hfresh]
  rcases hrun : b.type.resolve t global with ⟨e, x⟩
  rw [hrun] at hres
  obtain rfl : x = .ok ty := hres
  have hrun' : enterType t b =
      ⟨{ b with type := e }, .ok (t.modifyScope global (·.add b.name (.type ty)))⟩ := by
    unfold enterType enterNew
    rw [hfind, if_neg (Option.isSome_none ▸ Bool.false_ne_true), hrun]
    dsimp only [Visit.andThen]
    rw [henter]
  refine ⟨{ b with type := e }, t.modifyScope global (·.add b.name (.type ty)), ?_,
    ⟨?_, hg, fun id hid => scope_modifyScope_of_ne hid _, ?_, ?_⟩, hg, henc⟩
  · unfold enterDeclaration
    dsimp only
    rw [hrun']
    rfl
  · rw [modifyScope, List.length_modify]
  · rw [scope_modifyScope hg, if_pos rfl]
    rfl
  · rw [scope_modifyScope hg, if_pos rfl]
    exact .of_add hfresh

/-- The declarations of a program are entered alike if a type under a new name is inserted. -/
theorem enterDeclarations_inserted {before after ds : List Decl} {as : List Unit}
    (h : Visit.thread enterDeclaration .predefined (before ++ after) = ⟨(t, ds), .ok as⟩)
    (hnames : ∀ d ∈ before ++ after, d.name ≠ b.name)
    (hpredefined : predefined.find? global b.name = none)
    (hres : (b.type.resolve (Visit.thread enterDeclaration .predefined before).tree.1
      global).answer = .ok ty) :
    ∃ before' after' b' t' as', ds = before' ++ after' ∧
      Visit.thread enterDeclaration .predefined (before ++ .type b :: after) =
        ⟨(t', before' ++ .type b' :: after'), .ok as'⟩ ∧
      Parallel global (Scope.Inserted b.name ty) t t' := by
  rw [List.forall_mem_append] at hnames
  obtain ⟨t₁, before', after', bs, cs, hbefore, hafter, rfl, -⟩ :=
    Visit.thread_append_eq_ok_iff.1 h
  rw [find?_global predefined_holds.enclosing] at hpredefined
  have hkept : ∀ d ∈ before, ∀ (c : Scope) (e : Entry), c.get? b.name = none →
      c.declares d.name = false → (c.add d.name e).get? b.name = none := fun d hd c e hc _ => by
    rw [Scope.get?_add, hc, if_neg (hnames.1 d hd).symm]
    rfl
  obtain ⟨hg, henc, hfresh⟩ := enterDeclarations_keeps hbefore hkept predefined_holds.hasScope
    predefined_holds.enclosing hpredefined
  rw [hbefore] at hres
  obtain ⟨b', t₁', hb, hpar⟩ := enterDeclaration_inserted hg henc hfresh hres
  have hothers := enterDeclarations_parallel (fun _ => Scope.Inserted.keeps) hpar after
    fun d hd _ => Scope.Inserted.admits (hnames.2 d hd)
  rcases hrun : Visit.thread enterDeclaration t₁' after with ⟨⟨t', _⟩, x⟩
  rw [hafter, hrun] at hothers
  obtain ⟨cs', rfl, hpar', rfl, rfl⟩ := hothers _ rfl
  have hrest := Visit.thread_cons_eq_ok_iff.2 ⟨t₁', _, (), _, cs', hb, hrun, rfl, rfl⟩
  exact ⟨before', _, b', t', _, rfl, Visit.thread_append_eq_ok_iff.2
    ⟨t₁, before', _, bs, _, hbefore, hrest, rfl, rfl⟩, hpar'⟩

/-- The entry point is found behind the inserted declaration, too. -/
theorem checkEntry_inserted {entry : String} {p : Program} {before after : List Decl}
    (hsplit : p.declarations = before ++ after) (hnames : ∀ d ∈ before ++ after, d.name ≠ b.name)
    (h : checkEntry entry p = .ok ()) :
    checkEntry entry { p with declarations := before ++ .type b :: after } = .ok () := by
  obtain ⟨d, hd, hparameters⟩ := checkEntry_eq_ok_iff.1 h
  refine checkEntry_eq_ok_iff.2 ⟨d, ?_, hparameters⟩
  rw [hsplit] at hd
  have hentry : (Decl.procedure d).name = entry := by simpa using List.find?_some hd
  have hb : b.name ≠ entry := hentry ▸ (hnames _ (List.mem_of_find?_eq_some hd)).symm
  rw [← hd, List.find?_append, List.find?_append, List.find?_cons]
  rw [show decide ((Decl.type b).name = entry) = false from decide_eq_false hb]

end

end Spl
