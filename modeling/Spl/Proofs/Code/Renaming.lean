import Spl.Proofs.Code.Programs
import Spl.Proofs.Tree.Renaming

/-!
# Code does not name variables

The code of a body says where variables lie, and not what they are called. So a body in which
variables are renamed has the same code in a table in which the new names stand for the same
variables.

* `SameVariables`: what the names of variables stand for in two tables.
* `Expr.value_rename`, `Designator.address_rename`, `Stmt.code_rename`: bodies.
* `ProcDecl.code_rename`: procedures.
-/

namespace Spl

open SymbolTable

/-- The renamed variables of the second table are those of the first one, and the procedures are
the same. -/
structure SameVariables (ρ : String → String) (t t' : SymbolTable) (scope : ScopeId) : Prop where
  variableAt : ∀ n v, Spl.variableAt t scope n = .ok v → Spl.variableAt t' scope (ρ n) = .ok v
  procedure? : ∀ n, t'.procedure? n = t.procedure? n

variable {ρ : String → String} {t t' : SymbolTable} {a : Addressing}

/-! ## Expressions and designators -/

mutual

theorem Designator.address_rename (hR : Ready t a) (h : SameVariables ρ t t' a.scope) :
    ∀ {d : Designator} {ty : Ty},
    d.HasType (t.typeEnv a.scope) ty → (d.rename ρ).address t' a = d.address t a
  | _, _, @Designator.HasType.named _ p name ty _ hE => by
    obtain ⟨v, hv, -⟩ := variableAt_eq hE
    obtain ⟨offset, ho⟩ := hR.offsets name v hv
    rw [Designator.rename, Designator.address, Designator.address, hv, h.variableAt name v hv]
    -- The fault names the variable, but the variable has its place.
    refine bind_congr fun r => ?_
    show (pure v >>= _) = pure v >>= _
    rw [pure_bind, pure_bind, ho]
  | _, _, @Designator.HasType.element _ p array index length base harray hindex => by
    rw [Designator.rename, Designator.address, Designator.address, Designator.type_rename,
      Designator.address_rename hR h harray, Expr.value_rename hR h hindex]
  | _, _, @Designator.HasType.field _ p record name fields ty hrecord _ => by
    rw [Designator.rename, Designator.address, Designator.address, Designator.type_rename,
      Designator.address_rename hR h hrecord]

theorem Expr.value_rename (hR : Ready t a) (h : SameVariables ρ t t' a.scope) :
    ∀ {e : Expr} {ty : Ty},
    e.HasType (t.typeEnv a.scope) ty → (e.rename ρ).value t' a = e.value t a
  | _, _, @Expr.HasType.literal _ p value => by rw [Expr.rename, Expr.value, Expr.value]
  | _, _, @Expr.HasType.designator _ p d ty hd => by
    rw [Expr.rename, Expr.value, Expr.value, Designator.address_rename hR h hd]
  | _, _, @Expr.HasType.unary _ p op e ty he _ => by
    cases op
    rw [Expr.rename, Expr.value, Expr.value, Expr.value_rename hR h he]
  | _, _, @Expr.HasType.arith _ p op l r ty hl hr => by
    rw [Expr.rename, Expr.value, Expr.value, Expr.value_rename hR h hl, Expr.value_rename hR h hr]
  | _, _, @Expr.HasType.compare _ p op l r ty hl hr => by
    rw [Expr.rename, Expr.value, Expr.value, Expr.value_rename hR h hl, Expr.value_rename hR h hr]

end

theorem Expr.branchUnless_rename (hR : Ready t a) (h : SameVariables ρ t t' a.scope)
    {e : Expr} {ty : Ty} (he : e.HasType (t.typeEnv a.scope) ty)
    (label : String) : (e.rename ρ).branchUnless t' a label = e.branchUnless t a label := by
  have hvalue := Expr.value_rename hR h he
  cases he with
  | literal =>
    rw [Expr.rename] at hvalue ⊢
    rw [Expr.branchUnless, Expr.branchUnless, hvalue]
  | designator hd =>
    rw [Expr.rename] at hvalue ⊢
    rw [Expr.branchUnless, Expr.branchUnless, hvalue]
  | unary he _ =>
    rw [Expr.rename] at hvalue ⊢
    rw [Expr.branchUnless, Expr.branchUnless, hvalue]
  | arith hl hr =>
    rw [Expr.rename] at hvalue ⊢
    rw [Expr.branchUnless, Expr.branchUnless, hvalue]
  | compare hl hr =>
    rw [Expr.rename, Expr.branchUnless, Expr.branchUnless, Expr.value_rename hR h hl,
      Expr.value_rename hR h hr]

/-! ## Calls and statements -/

theorem Expr.argument_rename (hR : Ready t a) (h : SameVariables ρ t t' a.scope)
    (c : Call) (number : Nat) {parameter : Variable} {e : Expr}
    (he : e.Suits (t.typeEnv a.scope) parameter.view) :
    (e.rename ρ).argument t' a (c.rename ρ) number parameter =
      e.argument t a c number parameter := by
  obtain ⟨he, href⟩ := he
  generalize parameter.view.1 = ty at he
  unfold Expr.argument
  cases hr : parameter.isReference with
  | false =>
    rw [if_neg Bool.false_ne_true, if_neg Bool.false_ne_true]
    exact Expr.value_rename hR h he
  | true =>
    rw [if_pos rfl, if_pos rfl, Expr.designator?_rename]
    cases he with
    | designator hd => exact Designator.address_rename hR h hd
    | literal => cases href hr
    | unary _ _ => cases href hr
    | arith _ _ => cases href hr
    | compare _ _ => cases href hr

theorem Call.storeArguments_rename (hR : Ready t a)
    (h : SameVariables ρ t t' a.scope) (c : Call) : ∀ (index : Nat) {es : List Expr}
    {parameters : List Variable},
    List.Forall₂ (fun e v => e.Suits (t.typeEnv a.scope) v.view) es parameters →
    (c.rename ρ).storeArguments t' a index (es.map (·.rename ρ)) parameters =
      c.storeArguments t a index es parameters
  | _, [], _, hs => by
    cases hs
    rfl
  | index, e :: es, _, hs => by
    obtain ⟨v, vs, he, hes, rfl⟩ := List.forall₂_cons_left_iff.1 hs
    have hrest := Call.storeArguments_rename hR h c (index + 1) hes
    rw [List.map_cons, Call.storeArguments, Call.storeArguments,
      Expr.argument_rename hR h c (index + 1) he, hrest]
    rfl

theorem Call.code_rename (hR : Ready t a) (h : SameVariables ρ t t' a.scope)
    {c : Call} (hc : c.WellTyped (t.typeEnv a.scope)) :
    (c.rename ρ).code t' a = c.code t a := by
  obtain ⟨views, hviews, hes⟩ := hc
  obtain ⟨Q, hQ, rfl, -⟩ := hR.procedures c.procedure views hviews
  have hes := List.forall₂_map_right_iff.1 hes
  have hname : (c.rename ρ).procedure = c.procedure := rfl
  unfold Call.code
  rw [hname, h.procedure?, hQ]
  dsimp only
  rw [← Call.storeArguments_rename hR h c 0 hes]
  rfl

namespace Stmt

mutual

theorem code_rename (hR : Ready t a) (h : SameVariables ρ t t' a.scope) :
    ∀ {s : Stmt}, s.WellTyped (t.typeEnv a.scope) → (s.rename ρ).code t' a = s.code t a
  | .assign p d e, hs => by
    cases hs with
    | assign hd he _ =>
      rw [rename, code, code, Designator.address_rename hR h hd, Expr.value_rename hR h he]
  | .ifElse p e s₁ s₂, hs => by
    cases hs with
    | ifElse he h₁ h₂ =>
      rw [rename, code, code, isEmpty_rename, code_rename hR h h₁, code_rename hR h h₂]
      simp only [Expr.branchUnless_rename hR h he]
  | .whileDo p e s, hs => by
    cases hs with
    | whileDo he hs =>
      rw [rename, code, code, code_rename hR h hs]
      simp only [Expr.branchUnless_rename hR h he]
  | .call c, hs => by
    cases hs with
    | call hc => rw [rename, code, code, Call.code_rename hR h hc]
  | .compound p ss, hs => by
    cases hs with
    | compound hss => rw [rename, code, code, codeOf_rename hR h hss]
  | .empty p, _ => by rw [rename, code, code]

theorem codeOf_rename (hR : Ready t a) (h : SameVariables ρ t t' a.scope) :
    ∀ {ss : List Stmt}, (∀ s ∈ ss, s.WellTyped (t.typeEnv a.scope)) →
    codeOf t' a (renameOf ρ ss) = codeOf t a ss
  | [], _ => by rw [renameOf, codeOf, codeOf]
  | s :: ss, hss => by
    obtain ⟨hs, hss⟩ := List.forall_mem_cons.1 hss
    rw [renameOf, codeOf, codeOf, code_rename hR h hs, codeOf_rename hR h hss]

end

end Stmt

/-! ## Procedures -/

/-- The block of a procedure whose variables have other names. -/
theorem ProcDecl.code_rename {leaves : Bool} {q : Program} {d d' : ProcDecl} {P : Procedure}
    (hal : Allocated leaves t q) (hd : d ∈ q.procedures) (hP : t.Declares d P)
    (hp : Placed leaves t d P) (h : SameVariables ρ t t' P.localScope) (hname : d'.name = d.name)
    (hposition : d'.position = d.position) (hbody : d'.body = Stmt.renameOf ρ d.body) :
    d'.code t' = d.code t := by
  have hcode : ∀ base bias, Stmt.codeOf t' ⟨P.localScope, base, bias⟩ d'.body =
      Stmt.codeOf t ⟨P.localScope, base, bias⟩ d.body := fun base bias => by
    rw [hbody]
    exact Stmt.codeOf_rename (hal.ready hP hp rfl) h (hal.accepted.bodies d hd P hP)
  unfold ProcDecl.code enterFrame
  rw [hname, hposition, h.procedure?, hP.procedure]
  dsimp only
  cases P.layout.isLeaf with
  | true => simp only [↓reduceIte, bind_assoc, pure_bind, hcode]
  | false => simp only [Bool.false_eq_true, ↓reduceIte, bind_assoc, pure_bind, hcode]

/-- The blocks of procedures that have the same blocks one by one. -/
theorem codeOfProcedures_congr {ds ds' : List ProcDecl}
    (h : List.Forall₂ (fun d d' => d'.code t' = d.code t) ds ds') :
    codeOfProcedures t' ds' = codeOfProcedures t ds := by
  induction h with
  | nil => rfl
  | cons hd _ ih => rw [codeOfProcedures, codeOfProcedures, hd, ih]

end Spl
