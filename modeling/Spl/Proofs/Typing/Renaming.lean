import Mathlib.Data.Set.Function
import Spl.Proofs.Compile.Counterparts
import Spl.Proofs.Typing.Entering
import Spl.Proofs.Typing.Repeats

/-!
# A procedure whose variables are renamed

The parameters and local variables of one procedure get other names. If the new names are distinct
and hide nothing that the procedure mentions, its declarations are entered alike, and the tables
differ in the names in its local scope only.

* `ProcDecl.Renames`: names that the variables of a procedure can get.
* `Scope.Renamed`: a scope in which the variables have other names.
* `enterProcedure_renamed`: the declarations of the procedure.
-/

namespace Spl

open SymbolTable

/-! ## Renamings -/

/-- The names of types that the declarations of parameters and local variables mention. -/
def ProcDecl.typeNames (d : ProcDecl) : List String :=
  d.parameters.flatMap (·.type.names) ++ d.locals.flatMap (·.type.names)

/-- Names that the parameters and local variables of a procedure can get: they are distinct, and
where a name changes, the new one is not that of a type or a called procedure. -/
structure ProcDecl.Renames (ρ : String → String) (d : ProcDecl) : Prop where
  injective : Set.InjOn ρ {n | n ∈ d.names}
  types : ∀ n ∈ d.names, ρ n ≠ n → ρ n ∉ d.typeNames
  calls : ∀ n ∈ d.names, ρ n ≠ n → ∀ c ∈ d.calls, c.procedure ≠ ρ n

/-! ## Scopes -/

/-- The second scope has the variables of the first one, under other names. All names of the first
one are among `names`. -/
structure Scope.Renamed (ρ : String → String) (names : List String) (c c' : Scope) : Prop where
  entries : c'.entries = c.entries.map fun x => (ρ x.1, x.2)
  own : ∀ x ∈ c.entries, x.1 ∈ names ∧ ∃ v, x.2 = .var v

namespace Scope

/-- A scope of variables has no procedure. -/
theorem proc?_eq_none {c : Scope} (h : ∀ x ∈ c.entries, ∃ v, x.2 = .var v) (n : String) :
    (c.get? n).bind Entry.proc? = none := by
  cases he : c.get? n with
  | none => rfl
  | some e =>
    obtain ⟨v, rfl⟩ := h (n, e) (mem_of_lookup he)
    rfl

/-- Changing a procedure changes nothing in a scope of variables. -/
theorem update_mapProcedure {c : Scope} (h : ∀ x ∈ c.entries, ∃ v, x.2 = .var v) (n : String)
    (f : Procedure → Procedure) : c.update n (·.mapProcedure f) = c := by
  have hx : ∀ x ∈ c.entries, (if x.1 = n then (x.1, x.2.mapProcedure f) else x) = x :=
    fun x hx => by
      obtain ⟨v, hv⟩ := h x hx
      split
      · exact Prod.ext rfl (by rw [hv]; rfl)
      · rfl
  rw [update, List.map_congr_left hx, List.map_id']

end Scope

namespace Scope.Renamed

variable {ρ : String → String} {names : List String} {c c' : Scope} {n : String} {e : Entry}

/-- All that a name can stand for is a variable. -/
theorem eq_var (h : Renamed ρ names c c') (he : c.get? n = some e) : n ∈ names ∧ ∃ v, e = .var v :=
  h.own (n, e) (mem_of_lookup he)

theorem variables_right (h : Renamed ρ names c c') : ∀ x ∈ c'.entries, ∃ v, x.2 = .var v := by
  rw [h.entries]
  intro x hx
  obtain ⟨y, hy, rfl⟩ := List.mem_map.1 hx
  exact (h.own y hy).2

/-- Every name of the second scope is the new name of a variable. -/
theorem of_declares (h : Renamed ρ names c c') (hn : c'.declares n = true) :
    ∃ m ∈ names, ρ m = n ∧ c.declares m = true := by
  rw [declares_iff_mem_names, Scope.names, h.entries, List.map_map] at hn
  obtain ⟨x, hx, rfl⟩ := List.mem_map.1 hn
  exact ⟨x.1, (h.own x hx).1, rfl, declares_iff_mem_names.2 (List.mem_map_of_mem hx)⟩

/-- Names that do not change stand for what they stood for. -/
theorem get?_eq_none (h : Renamed ρ names c c') (hn : c.get? n = none)
    (hkept : ∀ m ∈ names, ρ m ≠ m → ρ m ≠ n) : c'.get? n = none := by
  by_contra hd
  obtain ⟨m, hm, rfl, hdm⟩ := h.of_declares (Option.isSome_iff_ne_none.2 hd)
  by_cases hρ : ρ m = m
  · rw [Scope.declares, ← hρ, hn] at hdm
    cases hdm
  · exact hkept m hm hρ rfl

/-- A variable is added under both names. -/
theorem add (h : Renamed ρ names c c') (hn : n ∈ names) (v : Variable) :
    Renamed ρ names (c.add n (.var v)) (c'.add (ρ n) (.var v)) where
  entries := by
    rw [Scope.add, Scope.add, h.entries, List.map_append]
    rfl
  own x hx := by
    rcases List.mem_append.1 hx with hx | hx
    · exact h.own x hx
    · rw [List.mem_singleton.1 hx]
      exact ⟨hn, v, rfl⟩

section
variable (hρ : Set.InjOn ρ {n | n ∈ names})
include hρ

/-- The new name stands for the variable. -/
theorem get?_eq (h : Renamed ρ names c c') (hn : n ∈ names) : c'.get? (ρ n) = c.get? n := by
  have hlookup : ∀ l : List (String × Entry), (∀ x ∈ l, x.1 ∈ names) →
      (l.map fun x => (ρ x.1, x.2)).lookup (ρ n) = l.lookup n := fun l hl => by
    induction l with
    | nil => rfl
    | cons x l ih =>
      rw [List.forall_mem_cons] at hl
      rw [List.map_cons, lookup_cons_eq_ite, lookup_cons_eq_ite, ih hl.2]
      simp only [hρ.eq_iff hn hl.1]
  rw [get?, get?, h.entries]
  exact hlookup _ fun x hx => (h.own x hx).1

/-- The new names stand for the variables, also when these are changed. -/
theorem matches_ (hn : n ∈ names) : Matches (Renamed ρ names) n (ρ n) where
  var? c c' h := by rw [h.get?_eq hρ hn]
  mapVariable c c' h f := by
    refine ⟨?_, fun x hx => ?_⟩
    · simp only [update, h.entries, List.map_map]
      refine List.map_congr_left fun x hx => ?_
      have hx := (h.own x hx).1
      simp only [Function.comp_apply, hρ.eq_iff hx hn]
      split <;> rfl
    · obtain ⟨y, hy, rfl⟩ := List.mem_map.1 hx
      obtain ⟨hmem, v, hv⟩ := h.own y hy
      split
      · exact ⟨hmem, f v, by rw [hv]; rfl⟩
      · exact ⟨hmem, v, hv⟩

end

/-- Neither scope has a procedure. -/
theorem sparesProcedures : SparesProcedures (Renamed ρ names) where
  proc? c c' h n := by
    rw [proc?_eq_none (fun x hx => (h.own x hx).2), proc?_eq_none h.variables_right]
  mapProcedure c c' h n f := by
    rw [update_mapProcedure (fun x hx => (h.own x hx).2), update_mapProcedure h.variables_right]
    exact h

end Scope.Renamed

/-! ## The procedure -/

section
variable {ρ : String → String} {d : ProcDecl} {t t' : SymbolTable} {s : ScopeId}

/-- The tables while the local scope of the procedure is filled. Its names are those of the
procedure. -/
abbrev FillingRenamed (ρ : String → String) (d : ProcDecl) (s : ScopeId) (t t' : SymbolTable) :
    Prop :=
  Filling s (Scope.Renamed ρ d.names) s t t'

/-- No type that the procedure mentions is hidden by a new name. -/
theorem FillingRenamed.resolvesAlike (hρ : d.Renames ρ) (hs : s ≠ global)
    (h : FillingRenamed ρ d s t t') {e : TypeExpr} (he : ∀ n ∈ e.names, n ∈ d.typeNames) :
    e.ResolvesAlike (fun y y' => y' = y) s t t' e := by
  refine e.resolve_follows fun n hn ty hty => ?_
  have hinside : (t'.scope s).enclosing = [global] := h.differs.enclosing.trans h.inside
  have hnone : (t.scope s).get? n = none := by
    cases hown : (t.scope s).get? n with
    | none => rfl
    | some e =>
      obtain ⟨-, v, rfl⟩ := h.differs.versions.eq_var hown
      rw [find?_of_get? hown] at hty
      cases hty
  have hnone' : (t'.scope s).get? n = none :=
    h.differs.versions.get?_eq_none hnone fun m hm hm' hmn =>
      hρ.types m hm hm' (hmn ▸ he n hn)
  rw [find?_of_enclosing h.inside, hnone] at hty
  rw [find?_of_enclosing hinside, hnone', h.differs.others global (Ne.symm hs)]
  exact hty

/-- A variable is entered under both names. -/
theorem FillingRenamed.entersAlike (hρ : d.Renames ρ) (h : FillingRenamed ρ d s t t') {n : String}
    (hn : n ∈ d.names) (v : Variable) :
    EntersAlike (FillingRenamed ρ d s) s n (ρ n) (.var v) t t' := by
  intro u hu
  have hfree : (t'.scope s).declares (ρ n) = false := by
    rw [Scope.declares, h.differs.versions.get?_eq hρ.injective hn]
    exact (enter?_eq_some_iff.1 hu).1
  obtain ⟨u', hu', hdiff⟩ := h.differs.enter? hfree (h.differs.versions.add hn v) hu
  exact ⟨u', hu', h.of_enter? hu hdiff⟩

/-- The tables once the procedure has been entered. -/
structure EnteredRenamed (ρ : String → String) (d : ProcDecl) (s : ScopeId) (t t' : SymbolTable) :
    Prop extends Parallel s (Scope.Renamed ρ d.names) t t' where
  ne_global : s ≠ global
  localScope : (t.procedure? d.name).map (·.localScope) = some s

/-- Before anything is entered into a new local scope, both tables are the same. -/
theorem fillingRenamed_newScope (hg : t.HasScope global)
    (henc : (t.scope global).enclosing = []) {u : SymbolTable}
    (hscope : t.newScope global = (s, u)) : s ≠ global ∧ FillingRenamed ρ d s u u := by
  have hself := scope_newScope_self t global
  have hfresh : ¬t.HasScope (t.newScope global).1 := Nat.lt_irrefl _
  have hhas := @hasScope_newScope_iff t global
  have hglobal := scope_newScope hg global
  rw [hscope] at hself hfresh hhas hglobal
  refine ⟨fun hs => hfresh (hs ▸ hg), ⟨⟨⟨rfl, hhas.2 (.inr rfl), fun _ _ => rfl, rfl, ?_⟩,
    hhas.2 (.inl hg), by rw [hglobal, henc]⟩, by rw [hself, chain, henc]⟩⟩
  rw [hself]
  exact ⟨rfl, fun x hx => absurd hx List.not_mem_nil⟩

/-- The renamed procedure is entered alike. -/
theorem enterProcedure_renamed (hg : t.HasScope global) (henc : (t.scope global).enclosing = [])
    (hρ : d.Renames ρ) :
    (enterProcedure t d).Follows (fun y u y' u' => y' = y.rename ρ ∧ ∃ s, EnteredRenamed ρ d s u u')
      (enterProcedure t (d.rename ρ)) := by
  rcases hscope : t.newScope global with ⟨s, u₁⟩
  obtain ⟨hs, hfill⟩ := fillingRenamed_newScope (ρ := ρ) (d := d) hg henc hscope
  refine enterProcedure_follows (P := fun b b' => b' = { b with name := ρ b.name })
    (B := fun b b' => b' = { b with name := ρ b.name }) (L := FillingRenamed ρ d s) hscope hscope
    ?_ (fun u' hu => ?_) (fun u u' parameters hu w hw => ?_) fun ps ps' ls ls' hps hls => ?_
  · refine .thread_along (R := fun _ b b' => b' = { b with name := ρ b.name } ∧ b ∈ d.parameters)
      (fun u u' b b' hu hb => ?_) hfill (.of_forall₂ (List.forall₂_map_right_iff.2
        (List.forall₂_same.2 fun b hb _ => ⟨rfl, hb⟩)) u₁)
    obtain ⟨rfl, hb⟩ := hb
    exact enterParameter_follows (R := fun y y' => y' = { y with name := ρ y.name }) rfl
      (hu.resolvesAlike hρ hs fun n hn =>
        List.mem_append_left _ (List.mem_flatMap.2 ⟨b, hb, hn⟩))
      (fun v => hu.entersAlike hρ (List.mem_append_left _ (List.mem_map_of_mem hb)) v)
      fun e e' he => by rw [he]
  · refine .thread_along (R := fun _ b b' => b' = { b with name := ρ b.name } ∧ b ∈ d.locals)
      (L := fun (x x' : SymbolTable × Word) => FillingRenamed ρ d s x.1 x'.1 ∧ x'.2 = x.2)
      (fun x x' b b' hx hb => ?_) ⟨hu, rfl⟩ (.of_forall₂ (List.forall₂_map_right_iff.2
        (List.forall₂_same.2 fun b hb _ => ⟨rfl, hb⟩)) _)
    obtain ⟨rfl, hb⟩ := hb
    obtain ⟨u, before⟩ := x
    obtain ⟨u', before'⟩ := x'
    obtain ⟨hu, rfl⟩ := hx
    exact enterLocal_follows (R := fun y y' => y' = { y with name := ρ y.name })
      (hu.resolvesAlike hρ hs fun n hn =>
        List.mem_append_right _ (List.mem_flatMap.2 ⟨b, hb, hn⟩))
      (fun v => hu.entersAlike hρ (List.mem_append_right _ (List.mem_map_of_mem hb)) v)
      fun e e' he => by rw [he]
  · obtain ⟨w', hw', hpar⟩ :=
      hu.toParallel.entersAlike_global (fun hg => absurd hg hs) _ w hw
    refine ⟨w', hw', s, hpar, hs, ?_⟩
    rw [procedure?_eq_some_iff.2 (get?_scope_of_enter? hu.hasScope hw)]
    rfl
  · rw [Visit.eq_of_forall₂ (List.forall₂_map_left_iff.2 hps),
      Visit.eq_of_forall₂ (List.forall₂_map_left_iff.2 hls)]
    rfl

theorem enterDeclaration_renamed (hg : t.HasScope global) (henc : (t.scope global).enclosing = [])
    (hρ : d.Renames ρ) : (enterDeclaration t (.procedure d)).Follows
      (fun y a y' a' => (∃ s, EnteredRenamed ρ d s y.1 y'.1) ∧
        (∃ d', y.2 = .procedure d' ∧ y'.2 = .procedure (d'.rename ρ)) ∧ a' = a)
      (enterDeclaration t (.procedure (d.rename ρ))) := by
  unfold enterDeclaration
  refine enterDeclaration_follows (L := fun u u' => ∃ s, EnteredRenamed ρ d s u u')
    (R := fun y y' => ∃ d', y = .procedure d' ∧ y' = .procedure (d'.rename ρ))
    ((enterProcedure_renamed hg henc hρ).mono fun y u y' u' hy => ?_)
  obtain ⟨rfl, hE⟩ := hy
  exact ⟨⟨y, rfl, rfl⟩, hE⟩

/-- The declarations of a program are entered alike if one of its procedures is renamed. -/
theorem enterDeclarations_renamed {before after ds : List Decl} {as : List Unit} (hρ : d.Renames ρ)
    (h : Visit.thread enterDeclaration .predefined (before ++ .procedure d :: after) =
      ⟨(t, ds), .ok as⟩) :
    ∃ before' after' d' t' s as', ds = before' ++ .procedure d' :: after' ∧
      Slotted.Kept (Decl.procedure d) (.procedure d') ∧ d'.body = d.body ∧
      Visit.thread enterDeclaration .predefined (before ++ .procedure (d.rename ρ) :: after) =
        ⟨(t', before' ++ .procedure (d'.rename ρ) :: after'), .ok as'⟩ ∧
      EnteredRenamed ρ d s t t' := by
  obtain ⟨t₁, before', _, bs, _, hbefore, hrest, rfl, -⟩ := Visit.thread_append_eq_ok_iff.1 h
  obtain ⟨t₂, _, _, after', cs, hd, hafter, rfl, -⟩ := Visit.thread_cons_eq_ok_iff.1 hrest
  obtain ⟨hg, henc, -⟩ := enterDeclarations_keeps (I := fun _ => True) hbefore
    (fun _ _ _ _ _ _ => trivial) predefined_holds.hasScope predefined_holds.enclosing trivial
  have hkept := (enterDeclaration_stable t₁ (.procedure d)).kept
  have hbody := enterDeclaration_body t₁ (.procedure d)
  have hown := enterDeclaration_renamed hg henc hρ
  rcases hrun : enterDeclaration t₁ (.procedure (d.rename ρ)) with ⟨⟨t₂', _⟩, x⟩
  rw [hd] at hkept hbody hown
  rw [hrun] at hown
  obtain ⟨a, rfl, ⟨s, hE⟩, ⟨d', rfl, rfl⟩, rfl⟩ := hown _ rfl
  have hothers := enterDeclarations_parallel (fun hs => absurd hs hE.ne_global)
    hE.toParallel after fun _ _ hs => absurd hs hE.ne_global
  rcases hrun' : Visit.thread enterDeclaration t₂' after with ⟨⟨t', _⟩, x⟩
  rw [hafter, hrun'] at hothers
  obtain ⟨cs', rfl, hpar, rfl, rfl⟩ := hothers _ rfl
  obtain ⟨P, hP, hPs⟩ := Option.map_eq_some_iff.1 hE.localScope
  obtain ⟨-, -, hP'⟩ := enterDeclarations_keeps (I := fun c => c.get? d.name = some (.proc P))
    hafter (fun x _ c e hc _ => Scope.get?_add_of_some hc x.name e) hE.hasScope hE.enclosing
    (procedure?_eq_some_iff.1 hP)
  have hrest' := Visit.thread_cons_eq_ok_iff.2 ⟨t₂', _, a, _, cs', hrun, hrun', rfl, rfl⟩
  refine ⟨before', _, d', t', s, _, rfl, hkept, congrArg Prod.snd (Option.some.inj hbody),
    Visit.thread_append_eq_ok_iff.2 ⟨t₁, before', _, bs, _, hbefore, hrest', rfl, rfl⟩,
    hpar, hE.ne_global, ?_⟩
  rw [procedure?_eq_some_iff.2 hP', ← hPs]
  rfl

end

end Spl
