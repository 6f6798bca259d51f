import Spl.Proofs.Follows
import Spl.Proofs.Tree.Renaming
import Spl.Proofs.Typing.Opened
import Spl.Proofs.Typing.Rules

/-!
# The check of a renamed body

A body that is correct where names stand for some variables and procedures stays correct when its
variables are renamed, at any place where the new names stand for variables of the same types and
the called procedures take the same parameters. The slots get the same types.

* `AlignedNames`: what names stand for at two places.
* `Expr.check_aligned`, `Designator.check_aligned`, `Call.check_aligned`: expressions and calls.
* `Stmt.check_aligned`, `Stmt.checkList_aligned`: statements.
* `Decl.BodiesAligned`, `checkAll_aligned`: the bodies of declarations, one after the other.
* `checkBodies_aligned`: programs.
-/

namespace Spl

open SymbolTable

/-- What a name stands for at the first place, the renamed one stands for at the second place, up to
where variables lie and frames are. Of procedures, only those of which `called` holds are
compared. -/
structure AlignedNames (ρ : String → String) (called : String → Prop) (t : SymbolTable)
    (scope : ScopeId) (t' : SymbolTable) (scope' : ScopeId) : Prop where
  var : ∀ n v, t.find? scope n = some (.var v) →
    ∃ v', t'.find? scope' (ρ n) = some (.var v') ∧ v'.view = v.view
  proc : ∀ n P, called n → t.find? scope n = some (.proc P) → ∃ P',
    t'.find? scope' n = some (.proc P') ∧
      P'.parameters.map Variable.view = P.parameters.map Variable.view

variable {ρ : String → String} {called : String → Prop} {t t' : SymbolTable}
  {scope scope' : ScopeId}

/-! ## Expressions and designators -/

theorem typeOfVariable_aligned (h : AlignedNames ρ called t scope t' scope')
    {p : Position} {n : String} {ty : Ty} (hty : typeOfVariable t scope p n = .ok ty) :
    typeOfVariable t' scope' p (ρ n) = .ok ty := by
  unfold typeOfVariable at hty ⊢
  cases he : t.find? scope n with
  | none => rw [he] at hty; cases hty
  | some e =>
    rw [he] at hty
    cases e with
    | type _ => cases hty
    | proc _ => cases hty
    | var v =>
      obtain ⟨v', hv', hview⟩ := h.var n v he
      rw [hv', ← hty]
      exact congrArg (fun x : Ty × Bool => Except.ok x.1) hview

mutual

theorem Expr.check_aligned (h : AlignedNames ρ called t scope t' scope') :
    ∀ e : Expr, (e.check t scope).Follows (fun y a y' a' => y' = y.rename ρ ∧ a' = a)
      ((e.rename ρ).check t' scope')
  | .literal p value slot => by
    rw [Expr.rename, Expr.check, Expr.check]
    exact conclude_follows (fun _ => by rw [Expr.rename]) fun _ hty => hty
  | .designator p target slot => by
    rw [Expr.rename, Expr.check, Expr.check]
    refine (target.check_aligned h).andThen fun y a y' a' hy => ?_
    obtain ⟨rfl, rfl⟩ := hy
    exact conclude_follows (fun _ => by rw [Expr.rename]) fun _ hty => hty
  | .unary p op operand slot => by
    rw [Expr.rename, Expr.check, Expr.check]
    refine (operand.check_aligned h).andThen fun y a y' a' hy => ?_
    obtain ⟨rfl, rfl⟩ := hy
    exact conclude_follows (fun _ => by rw [Expr.rename]) fun _ hty => hty
  | .binary p op left right slot => by
    rw [Expr.rename, Expr.check, Expr.check]
    refine (left.check_aligned h).andThen fun l a l' a' hl => ?_
    obtain ⟨rfl, rfl⟩ := hl
    refine (right.check_aligned h).andThen fun r b r' b' hr => ?_
    obtain ⟨rfl, rfl⟩ := hr
    exact conclude_follows (fun _ => by rw [Expr.rename]) fun _ hty => hty

theorem Designator.check_aligned (h : AlignedNames ρ called t scope t' scope') :
    ∀ d : Designator, (d.check t scope).Follows (fun y a y' a' => y' = y.rename ρ ∧ a' = a)
      ((d.rename ρ).check t' scope')
  | .named p name slot => by
    rw [Designator.rename, Designator.check, Designator.check]
    exact conclude_follows (fun _ => by rw [Designator.rename]) fun _ => typeOfVariable_aligned h
  | .element p array index slot => by
    rw [Designator.rename, Designator.check, Designator.check]
    refine (index.check_aligned h).andThen fun i a i' a' hi => ?_
    obtain ⟨rfl, rfl⟩ := hi
    cases checkIndex p a' with
    | error e => exact .of_fail
    | ok _ =>
      refine (array.check_aligned h).andThen fun y b y' b' hy => ?_
      obtain ⟨rfl, rfl⟩ := hy
      exact conclude_follows (fun _ => by rw [Designator.rename]) fun _ hty => hty
  | .field p record name slot => by
    rw [Designator.rename, Designator.check, Designator.check]
    refine (record.check_aligned h).andThen fun y a y' a' hy => ?_
    obtain ⟨rfl, rfl⟩ := hy
    exact conclude_follows (fun _ => by rw [Designator.rename]) fun _ hty => hty

end

/-! ## Calls -/

/-- What is checked of the arguments does not depend on names of variables, nor on where the
parameters lie. -/
theorem checkArguments_aligned (procedure : String) : ∀ (n : Nat) (es : List Expr) (tys : List Ty)
    {vs vs' : List Variable}, vs'.map Variable.view = vs.map Variable.view →
    checkArguments procedure n (es.map (·.rename ρ)) tys vs' = checkArguments procedure n es tys vs
  | n, e :: es, ty :: tys, v :: vs, v' :: vs', hvs => by
    simp only [List.map_cons, List.cons.injEq, Variable.view, Prod.mk.injEq] at hvs
    obtain ⟨⟨htype, href⟩, hvs⟩ := hvs
    rw [List.map_cons, checkArguments, checkArguments,
      checkArguments_aligned procedure (n + 1) es tys hvs]
    simp only [checkArgument, Expr.position_rename, Expr.designator?_rename, Option.isNone_map,
      htype, href]
  | _, [], _, _, _, _ => by simp only [List.map_nil, checkArguments]
  | _, _ :: _, [], _, _, _ => by simp only [List.map_cons, checkArguments]
  | _, _ :: _, _ :: _, [], [], _ => by simp only [List.map_cons, checkArguments]

theorem Call.check_aligned (h : AlignedNames ρ called t scope t' scope') {c : Call}
    (hc : called c.procedure) :
    (c.check t scope).Follows (fun y _ y' _ => y' = y.rename ρ) ((c.rename ρ).check t' scope') := by
  have hname : (c.rename ρ).procedure = c.procedure := rfl
  unfold Call.check parametersOf
  rw [hname]
  cases he : t.find? scope c.procedure with
  | none => exact .of_fail
  | some e =>
    cases e with
    | type _ => exact .of_fail
    | var _ => exact .of_fail
    | proc P =>
      obtain ⟨P', hP', hviews⟩ := h.proc c.procedure P hc he
      rw [hP']
      dsimp only
      refine (Visit.Follows.list fun e _ => e.check_aligned h).andThen fun es tys es' tys' hes => ?_
      obtain ⟨rfl, rfl⟩ := hes
      have hcount : checkCount (c.rename ρ) P'.parameters = checkCount c P.parameters := by
        have hlen : P'.parameters.length = P.parameters.length := by
          simpa using congrArg List.length hviews
        simp only [checkCount, Call.rename, List.length_map, hlen]
      intro _ hok
      refine ⟨(), ?_, rfl⟩
      show (do checkCount (c.rename ρ) P'.parameters
               checkArguments c.procedure 1 (es.map (Expr.rename ρ)) tys' P'.parameters) = _
      rw [hcount, checkArguments_aligned c.procedure 1 es tys' hviews]
      exact hok

/-! ## Statements -/

/-- Names stand for the same in larger tables. -/
theorem AlignedNames.of_extends (h : AlignedNames ρ called t scope t' scope')
    {u u' : SymbolTable} (hx : t.Extends u) (hx' : t'.Extends u') (hc : t.Closed scope)
    (hc' : t'.Closed scope') : AlignedNames ρ called u scope u' scope' := by
  refine ⟨fun n v => ?_, fun n P => ?_⟩
  · rw [find?_of_extends hx hc, find?_of_extends hx' hc']
    exact h.var n v
  · rw [find?_of_extends hx hc, find?_of_extends hx' hc']
    exact h.proc n P

/-- Names stand for the same in a new scope as around it. -/
theorem AlignedNames.newScope (h : AlignedNames ρ called t scope t' scope') (hc : t.Closed scope)
    (hc' : t'.Closed scope') : AlignedNames ρ called (t.newScope scope).2 (t.newScope scope).1
      (t'.newScope scope').2 (t'.newScope scope').1 := by
  refine ⟨fun n v => ?_, fun n P => ?_⟩
  · rw [find?_newScope hc, find?_newScope hc']
    exact h.var n v
  · rw [find?_newScope hc, find?_newScope hc']
    exact h.proc n P

namespace Stmt

/-- The check only appends empty scopes. -/
theorem extends_check (s : Stmt) (h : t.HasScope scope) : t.Extends (s.check scope t).tree.1 :=
  (s.check_opens h).extends_tree s.entries_of_mem_opened

mutual

theorem check_aligned : ∀ (s : Stmt) {t t' : SymbolTable} {scope scope' : ScopeId},
    AlignedNames ρ called t scope t' scope' → t.Closed scope → t'.Closed scope' →
    (∀ c ∈ s.calls, called c.procedure) →
    (s.check scope t).Follows (fun y _ y' _ => y'.2 = y.2.rename ρ)
      ((s.rename ρ).check scope' t')
  | .assign p target value, t, t', scope, scope', h, _, _, _ => by
    rw [rename, check, check]
    refine (target.check_aligned h).andThen fun d ty d' ty' hd => ?_
    obtain ⟨rfl, rfl⟩ := hd
    refine (value.check_aligned h).andThen fun e ty e' ty' he => ?_
    obtain ⟨rfl, rfl⟩ := he
    exact fun a ha => ⟨a, ha, (rename.eq_1 ..).symm⟩
  | .ifElse p condition thenPart elsePart, t, t', scope, scope', h, hc, hc', hcalls => by
    rw [calls, List.forall_mem_append] at hcalls
    rw [rename, check, check]
    refine (condition.check_aligned h).andThen fun e ty e' ty' he => ?_
    obtain ⟨rfl, rfl⟩ := he
    cases checkCondition p .ifCondition ty' with
    | error e => exact .of_fail
    | ok _ =>
      have hthen := check_aligned thenPart h hc hc' hcalls.1
      have hx := thenPart.extends_check hc.hasScope
      have hx' := (thenPart.rename ρ).extends_check hc'.hasScope
      refine Visit.Follows.andThen (R := fun y _ y' _ =>
        y'.2 = y.2.rename ρ ∧ t.Extends y.1 ∧ t'.Extends y'.1) (fun a ha => ?_)
        fun y a y' a' hy => ?_
      · obtain ⟨a', ha', hy⟩ := hthen a ha
        exact ⟨a', ha', hy, hx, hx'⟩
      · obtain ⟨hy, hx, hx'⟩ := hy
        have helse := check_aligned elsePart (h.of_extends hx hx' hc hc') (hx.closed hc)
          (hx'.closed hc') hcalls.2
        refine .mapTree (helse.mono fun z b z' b' hz => ?_)
        show Stmt.ifElse p (e.rename ρ) y'.2 z'.2 = (Stmt.ifElse p e y.2 z.2).rename ρ
        rw [hy, hz, rename]
  | .whileDo p condition body, t, t', scope, scope', h, hc, hc', hcalls => by
    rw [calls] at hcalls
    rw [rename, check, check]
    refine (condition.check_aligned h).andThen fun e ty e' ty' he => ?_
    obtain ⟨rfl, rfl⟩ := he
    cases checkCondition p .whileCondition ty' with
    | error e => exact .of_fail
    | ok _ =>
      refine .mapTree ((check_aligned body h hc hc' hcalls).mono fun y a y' a' hy => ?_)
      show Stmt.whileDo p (e.rename ρ) y'.2 = (Stmt.whileDo p e y.2).rename ρ
      rw [hy, rename]
  | .call c, t, t', scope, scope', h, _, _, hcalls => by
    rw [rename, check, check]
    have hcall := Call.check_aligned h (hcalls c (by rw [calls]; exact .head _))
    refine .mapTree (hcall.mono fun y a y' a' hy => ?_)
    show Stmt.call y' = (Stmt.call y).rename ρ
    rw [hy, rename]
  | .compound p statements, t, t', scope, scope', h, hc, hc', hcalls => by
    rw [calls] at hcalls
    rw [rename, check, check]
    have hlist := checkList_aligned statements (h.newScope hc hc') (closed_newScope hc)
      (closed_newScope hc') hcalls
    refine .mapTree (hlist.mono fun y a y' a' hy => ?_)
    show Stmt.compound p y'.2 = (Stmt.compound p y.2).rename ρ
    rw [hy, rename]
  | .empty p, t, t', scope, scope', _, _, _, _ => by
    rw [rename, check, check]
    exact fun a ha => ⟨a, ha, (rename.eq_6 ..).symm⟩

theorem checkList_aligned : ∀ (ss : List Stmt) {t t' : SymbolTable} {scope scope' : ScopeId},
    AlignedNames ρ called t scope t' scope' → t.Closed scope → t'.Closed scope' →
    (∀ c ∈ callsOf ss, called c.procedure) →
    (checkList scope t ss).Follows (fun y _ y' _ => y'.2 = renameOf ρ y.2)
      (checkList scope' t' (renameOf ρ ss))
  | [], t, t', scope, scope', _, _, _, _ => by
    rw [renameOf, checkList, checkList]
    exact fun a ha => ⟨a, ha, (renameOf.eq_1 ..).symm⟩
  | s :: ss, t, t', scope, scope', h, hc, hc', hcalls => by
    rw [callsOf, List.forall_mem_append] at hcalls
    rw [renameOf, checkList, checkList]
    have hs := check_aligned s h hc hc' hcalls.1
    have hx := s.extends_check hc.hasScope
    have hx' := (s.rename ρ).extends_check hc'.hasScope
    refine Visit.Follows.andThen (R := fun y _ y' _ =>
      y'.2 = y.2.rename ρ ∧ t.Extends y.1 ∧ t'.Extends y'.1) (fun a ha => ?_)
      fun y a y' a' hy => ?_
    · obtain ⟨a', ha', hy⟩ := hs a ha
      exact ⟨a', ha', hy, hx, hx'⟩
    · obtain ⟨hy, hx, hx'⟩ := hy
      have hrest := checkList_aligned ss (h.of_extends hx hx' hc hc') (hx.closed hc)
        (hx'.closed hc') hcalls.2
      refine .mapTree (hrest.mono fun z b z' b' hz => ?_)
      show y'.2 :: z'.2 = renameOf ρ (y.2 :: z.2)
      rw [hy, hz, renameOf]

end

end Stmt

namespace Stmt

mutual

/-- Renaming variables opens the same scopes. -/
theorem opened_rename : ∀ (s : Stmt) (chain : List ScopeId) (next : Nat),
    (s.rename ρ).opened chain next = s.opened chain next
  | .assign .., _, _ => by rw [rename, opened, opened]
  | .ifElse _ _ s₁ s₂, _, _ => by
    rw [rename, opened, opened, opened_rename s₁, opened_rename s₂]
  | .whileDo _ _ s, _, _ => by rw [rename, opened, opened, opened_rename s]
  | .call _, _, _ => by rw [rename, opened, opened]
  | .compound _ ss, _, _ => by rw [rename, opened, opened, openedOf_rename ss]
  | .empty _, _, _ => by rw [rename, opened]

theorem openedOf_rename : ∀ (ss : List Stmt) (chain : List ScopeId) (next : Nat),
    openedOf chain next (renameOf ρ ss) = openedOf chain next ss
  | [], _, _ => by rw [renameOf]
  | s :: ss, _, _ => by rw [renameOf, openedOf, openedOf, opened_rename s, openedOf_rename ss]

end

end Stmt

/-! ## Declarations -/

/-- The body of the second declaration is that of the first one with other names of variables, and
the names stand for the same in the local scopes of both. `Q` holds of the declarations whatever
becomes of the body. -/
inductive Decl.BodiesAligned (t t' : SymbolTable) (Q : Decl → Decl → Prop) : Decl → Decl → Prop
  | type {d d' : Binding TypeExpr} :
      Q (.type d) (.type d') → BodiesAligned t t' Q (.type d) (.type d')
  | procedure {d d' : ProcDecl} {ρ : String → String} {P P' : Procedure} :
      d'.body = Stmt.renameOf ρ d.body → t.procedure? d.name = some P →
      t'.procedure? d'.name = some P' → t.Closed P.localScope → t'.Closed P'.localScope →
      AlignedNames ρ (fun n => ∃ c ∈ d.calls, c.procedure = n) t P.localScope t' P'.localScope →
      (∀ body, Q (.procedure { d with body })
        (.procedure { d' with body := Stmt.renameOf ρ body })) →
      BodiesAligned t t' Q (.procedure d) (.procedure d')

/-- Whatever becomes of the bodies, the declarations themselves are related. -/
theorem Decl.BodiesAligned.self {Q : Decl → Decl → Prop} {x x' : Decl}
    (h : Decl.BodiesAligned t t' Q x x') : Q x x' := by
  cases h with
  | type hQ => exact hQ
  | @procedure d d' _ _ _ hbody _ _ _ _ _ hQ =>
    have hd := hQ d.body
    rwa [← hbody] at hd

/-- Declarations with such bodies are checked alike. -/
theorem checkAll_aligned {Q : Decl → Decl → Prop} (hg : t.HasScope global)
    (hg' : t'.HasScope global) {ds ds' : List Decl}
    (h : List.Forall₂ (Decl.BodiesAligned t t' Q) ds ds') {u u' : SymbolTable} (hx : t.Extends u)
    (hx' : t'.Extends u') :
    (Visit.thread Decl.checkBody u ds).Follows (fun y _ y' _ => List.Forall₂ Q y.2 y'.2)
      (Visit.thread Decl.checkBody u' ds') := by
  refine (Visit.Follows.thread (T := Q) (K := fun u u' ds ds' => t.Extends u ∧ t'.Extends u' ∧
    List.Forall₂ (Decl.BodiesAligned t t' Q) ds ds') ?_ ?_ ⟨hx, hx', h⟩).mono
    fun _ _ _ _ hy => hy.2.1
  · intro u u' ds' hK
    exact List.forall₂_nil_left_iff.1 hK.2.2
  · intro u u' d ds us hK
    obtain ⟨hx, hx', hK⟩ := hK
    obtain ⟨d', ds', hd, hds, rfl⟩ := List.forall₂_cons_left_iff.1 hK
    refine ⟨d', ds', rfl, ?_⟩
    cases hd with
    | type hQ => exact fun a ha => ⟨a, ha, ⟨hx, hx', hds⟩, hQ, rfl⟩
    | @procedure d d' ρ P P' hbody hP hP' hc hc' hal hQ =>
      have hu : u.procedure? d.name = some P := (hx.grows hg).procedure? hP
      have hu' : u'.procedure? d'.name = some P' := (hx'.grows hg').procedure? hP'
      have hlist := Stmt.checkList_aligned d.body (hal.of_extends hx hx' hc hc') (hx.closed hc)
        (hx'.closed hc') fun c hcm => ⟨c, hcm, rfl⟩
      rw [← hbody] at hlist
      unfold Decl.checkBody
      dsimp only
      rw [hu, hu']
      refine .mapTree (fun a ha => ?_)
      obtain ⟨a', ha', hy⟩ := hlist a ha
      refine ⟨a', ha', ⟨hx.trans ?_, hx'.trans ?_, hds⟩, ?_, rfl⟩
      · exact (Stmt.checkList_opens d.body (hx.hasScope hc.hasScope)).extends_tree
          (Stmt.entries_of_mem_openedOf d.body)
      · exact (Stmt.checkList_opens d'.body (hx'.hasScope hc'.hasScope)).extends_tree
          (Stmt.entries_of_mem_openedOf d'.body)
      · rw [hy]
        exact hQ _

/-- Programs with such declarations are checked alike. -/
theorem checkBodies_aligned {Q : Decl → Decl → Prop} (hg : t.HasScope global)
    (hg' : t'.HasScope global) {p p' : Program}
    (h : List.Forall₂ (Decl.BodiesAligned t t' Q) p.declarations p'.declarations) :
    (checkBodies t p).Follows (fun y _ y' _ => ∃ ds ds', y.2 = { p with declarations := ds } ∧
      y'.2 = { p' with declarations := ds' } ∧ List.Forall₂ Q ds ds') (checkBodies t' p') :=
  .map (.mapTree ((checkAll_aligned hg hg' h (.refl t) (.refl t')).mono
    fun _ _ _ _ hQ => ⟨_, _, rfl, rfl, hQ⟩))

end Spl
