import Spl.Compile
import Spl.Proofs.Outcome
import Spl.Proofs.Tree.Bare

/-!
# Passes that are repeated

A semantic pass that walks over a tree which it has left before comes to the same outcome, also
where it was stopped half way. It never changes a filled slot, and leaves none empty if it succeeds.
All of this holds for every tree and every table.

* `Visit.Stable`: what holds of a visit and of its repetition.
* `TypeExpr.resolve_stable`, `Expr.check_stable`, `Stmt.check_stable`: type expressions and bodies.
* `enterDeclaration_stable`, `Decl.checkBody_stable`: declarations.
-/

namespace Spl

open Slotted

/-! ## Stable visits -/

namespace Visit

variable {ε τ υ σ α β : Type}

theorem andThen_ok {y : τ} {a : α} {stop : τ → υ} {next : τ → α → Visit ε υ β} :
    (⟨y, .ok a⟩ : Visit ε τ α).andThen stop next = next y a := rfl

theorem mapTree_andThen {ε : Type} {ω : Type} (v : Visit ε τ α) (f : τ → υ) (stop : υ → ω)
    (next : υ → α → Visit ε ω β) :
    (v.mapTree f).andThen stop next = v.andThen (fun y => stop (f y)) fun y => next (f y) := by
  obtain ⟨y, x⟩ := v
  cases x <;> rfl

/-- The outcome `v` of a visit has left a tree with `P` that the pass `F` visits with the same
outcome again. The tree satisfies `Q` if the visit succeeded. -/
structure Stable (F : τ → Visit ε τ α) (P Q : τ → Prop) (v : Visit ε τ α) : Prop where
  again : F v.tree = v
  kept : P v.tree
  full : ∀ a, v.answer = .ok a → Q v.tree

namespace Stable

variable {g : τ → Visit ε τ α} {F : υ → Visit ε υ β} {P Q : τ → Prop} {P' Q' : υ → Prop}
  {v : Visit ε τ α}

/-- The last step of a visit. -/
theorem done {y : υ} {x : Except ε β} (hF : F y = ⟨y, x⟩) (hP : P' y) (hQ : Q' y) :
    Stable F P' Q' ⟨y, x⟩ := ⟨hF, hP, fun _ _ => hQ⟩

theorem fail {y : υ} {e : ε} (hF : F y = Visit.fail y e) (hP : P' y) :
    Stable F P' Q' (Visit.fail y e) := ⟨hF, hP, nofun⟩

/-- The last step of a visit that changes a state. -/
theorem state {F : σ × υ → Visit ε (σ × υ) β} {P Q : σ × υ → Prop} {y : υ}
    {v : Visit ε (σ × υ) β} (hF : ∀ s, F (s, y) = v) (hy : v.tree.2 = y) (hP : ∀ s, P (s, y))
    (hQ : ∀ s, Q (s, y)) : Stable F P Q v := by
  have htree : v.tree = (v.tree.1, y) := Prod.ext rfl hy
  refine ⟨?_, ?_, fun _ _ => ?_⟩
  · rw [htree]
    exact hF v.tree.1
  · rw [htree]
    exact hP v.tree.1
  · rw [htree]
    exact hQ v.tree.1

/-- A part of a tree is visited first. The pass finds the part again as the visit has left it, in
the tree that is left when the visit fails and in the one that the next step leaves. -/
theorem andThen {stop : τ → υ} {next : τ → α → Visit ε υ β} (hv : Stable g P Q v)
    (hstop : ∀ y, P y → F (stop y) = (g y).andThen stop next) (hP : ∀ y, P y → P' (stop y))
    (hnext : ∀ y a, g y = ⟨y, .ok a⟩ → P y → Q y → Stable F P' Q' (next y a)) :
    Stable F P' Q' (v.andThen stop next) := by
  obtain ⟨y, x⟩ := v
  obtain ⟨hagain, hkept, hfull⟩ := hv
  cases x with
  | ok a => exact hnext y a hagain hkept (hfull a rfl)
  | error e =>
    refine ⟨(hstop y hkept).trans ?_, hP y hkept, nofun⟩
    rw [show g y = _ from hagain]

/-- A part of a tree is visited last. -/
theorem mapTree {f : τ → υ} {F : υ → Visit ε υ α} (hv : Stable g P Q v)
    (hF : ∀ y, F (f y) = (g y).mapTree f) (hP : ∀ y, P y → P' (f y)) (hQ : ∀ y, Q y → Q' (f y)) :
    Stable F P' Q' (v.mapTree f) :=
  ⟨(hF v.tree).trans (congrArg _ hv.again), hP _ hv.kept, fun a ha => hQ _ (hv.full a ha)⟩

theorem mapTree_map {f : τ → υ} {k : α → β} (hv : Stable g P Q v)
    (hF : ∀ y, F (f y) = ((g y).mapTree f).map k) (hP : ∀ y, P y → P' (f y))
    (hQ : ∀ y, Q y → Q' (f y)) : Stable F P' Q' ((v.mapTree f).map k) := by
  refine ⟨(hF v.tree).trans (by rw [hv.again]), hP _ hv.kept, fun b hb => ?_⟩
  obtain ⟨y, x⟩ := v
  cases x with
  | ok a => exact hQ y (hv.full a rfl)
  | error e => cases hb

variable [Slotted τ]

/-- A list of visits. -/
theorem list {ts : List τ} (h : ∀ t ∈ ts, Stable g (Kept t) Full (g t)) :
    Stable (Visit.list g) (Kept ts) Full (Visit.list g ts) := by
  induction ts with
  | nil => exact .done rfl .nil nofun
  | cons t ts ih =>
    refine .andThen (h t (.head _)) (fun _ _ => rfl) (fun _ ht => .cons ht (.refl ts)) ?_
    intro t' a ha ht hfull
    refine .mapTree_map (ih fun u hu => h u (.tail _ hu)) (fun _ => ?_) (fun _ => .cons ht)
      fun _ => hfull.cons
    rw [Visit.list, ha]
    rfl

/-- A list of visits that change a state. The repetition begins in the same state. -/
theorem thread {visit : σ → τ → Visit ε (σ × τ) α} {R : τ → Prop}
    (h : ∀ s t, Stable (fun x => visit s x.2) (fun x => Kept t x.2) (fun x => R x.2) (visit s t))
    (ts : List τ) (s : σ) :
    Stable (fun x => Visit.thread visit s x.2) (fun x => Kept ts x.2) (fun x => ∀ t ∈ x.2, R t)
      (Visit.thread visit s ts) := by
  induction ts generalizing s with
  | nil => exact .done rfl .nil nofun
  | cons t ts ih =>
    refine .andThen (h s t) (fun _ _ => rfl) (fun _ ht => .cons ht (.refl ts)) ?_
    intro (s', t') a ha ht hR
    refine .mapTree_map (ih s') (fun _ => ?_) (fun _ => .cons ht) fun _ hRs =>
      List.forall_mem_cons.2 ⟨hR, hRs⟩
    rw [Visit.thread, show visit s t' = _ from ha]
    rfl

end Stable

end Visit

/-- A type is written into the slot of a node: the node is visited again with the slot as it is
then. -/
theorem conclude_stable {τ : Type} {F : τ → SemanticVisit τ Ty} {P Q : τ → Prop} {slot : TypeSlot}
    {node : TypeSlot → τ} {rule : Verdict Ty}
    (hF : ∀ slot, F (node slot) = conclude slot node rule)
    (hP : ∀ slot', slot.Keeps slot' → P (node slot'))
    (hQ : ∀ slot', slot'.type?.isSome → Q (node slot')) :
    (conclude slot node rule).Stable F P Q := by
  have hnode := hF slot
  unfold conclude at hnode ⊢
  cases rule with
  | error e => exact .fail hnode (hP slot (.refl slot))
  | ok type =>
    dsimp only at hnode ⊢
    cases hs : slot.fill type with
    | error f =>
      rw [hs] at hnode
      exact .fail hnode (hP slot (.refl slot))
    | ok slot' =>
      obtain ⟨htype, hold⟩ := TypeSlot.fill_eq_ok_iff.1 hs
      refine .done ?_ (hP slot' fun old h => ?_) (hQ slot' (by rw [htype]; rfl))
      · have hagain : slot'.fill type = .ok slot' := TypeSlot.fill_eq_ok_iff.2 ⟨htype, .inr htype⟩
        rw [hF slot', conclude, hagain]
        rfl
      · rw [htype, ← h]
        exact (hold.resolve_left (by rw [h]; nofun)).symm

/-! ## Type expressions -/

theorem checkFieldNames_bare : ∀ (seen : List String) (fields : List (Binding TypeExpr)),
    checkFieldNames seen (fields.map Binding.bare) = checkFieldNames seen fields
  | _, [] => rfl
  | seen, f :: fields => by
    rw [List.map_cons, checkFieldNames, checkFieldNames, ← checkFieldNames_bare (f.name :: seen)]
    rfl

theorem checkFieldNames_kept {fields fields' : List (Binding TypeExpr)} (h : Kept fields fields')
    (seen : List String) : checkFieldNames seen fields' = checkFieldNames seen fields := by
  have hbare : fields'.map Binding.bare = fields.map Binding.bare := h.bare
  rw [← checkFieldNames_bare, hbare, checkFieldNames_bare]

section

variable (t : SymbolTable) (scope : ScopeId)

namespace TypeExpr

theorem full_record {p : Position} {fields : List (Binding TypeExpr)} {slot : TypeSlot}
    (hs : slot.type?.isSome) (h : Full fields) : Full (TypeExpr.record p fields slot) := by
  refine List.forall_mem_cons.2 ⟨hs, ?_⟩
  rw [slotsOf_eq]
  exact h

mutual

theorem resolve_stable : ∀ e : TypeExpr,
    (e.resolve t scope).Stable (resolve t scope) (Kept e) Full
  | .named p name slot => by
    rw [resolve]
    exact conclude_stable (fun _ => by rw [resolve]) (fun _ => .namedType) fun _ hs =>
      List.forall_mem_singleton.2 hs
  | .array p size base slot => by
    rw [resolve]
    refine .andThen base.resolve_stable (fun _ _ => by rw [resolve])
      (fun _ => .arrayType (.refl slot)) ?_
    intro base' type hbase hkept hfull
    refine conclude_stable (fun _ => ?_) (fun _ hs => .arrayType hs hkept) fun _ hs =>
      List.forall_mem_cons.2 ⟨hs, hfull⟩
    rw [resolve, hbase, Visit.andThen_ok]
  | .record p fields slot => by
    rw [resolve]
    cases hnames : checkFieldNames [] fields with
    | error e => exact .fail (by rw [resolve, hnames]) (.refl _)
    | ok _ =>
      refine .andThen (resolveFields_stable fields) (fun fields' hkept => ?_)
        (fun _ => .recordType (.refl slot)) ?_
      · rw [resolve, checkFieldNames_kept hkept, hnames]
      · intro fields' types hfields hkept hfull
        refine conclude_stable (fun _ => ?_) (fun _ hs => .recordType hs hkept) fun _ hs =>
          full_record hs hfull
        rw [resolve, checkFieldNames_kept hkept, hnames]
        dsimp only
        rw [hfields, Visit.andThen_ok]

theorem resolveFields_stable : ∀ fields : List (Binding TypeExpr),
    (resolveFields t scope fields).Stable (resolveFields t scope) (Kept fields) Full
  | [] => by
    rw [resolveFields]
    exact .done (by rw [resolveFields]; rfl) .nil nofun
  | ⟨p, name, type⟩ :: fields => by
    rw [resolveFields]
    refine .andThen type.resolve_stable (fun _ _ => by rw [resolveFields])
      (fun _ h => .cons (.binding h) (.refl fields)) ?_
    intro type' ty htype hkept hfull
    have hfull : Full (Binding.mk p name type') := hfull
    refine .mapTree_map (resolveFields_stable fields) (fun _ => ?_)
      (fun _ => .cons (.binding hkept)) fun _ => hfull.cons
    rw [resolveFields, htype, Visit.andThen_ok]

end

end TypeExpr

end

/-! ## Declarations -/

theorem enterParameter_stable (scope : ScopeId) (t : SymbolTable) (d : ParamDecl) :
    (enterParameter scope t d).Stable (fun x => enterParameter scope t x.2) (fun x => Kept d x.2)
      fun x => Full x.2 := by
  unfold enterParameter
  refine .andThen (d.type.resolve_stable t scope) (fun _ _ => rfl) (fun _ => .parameter) ?_
  intro type ty htype hkept hfull
  refine .state (y := { d with type }) (fun _ => ?_) (by dsimp only; split <;> rfl)
    (fun _ => .parameter hkept) fun _ => hfull
  show (type.resolve t scope).andThen _ _ = _
  rw [htype]
  rfl

theorem enterLocal_stable (procedure : String) (scope : ScopeId) (state : SymbolTable × Word)
    (d : Binding TypeExpr) :
    (enterLocal procedure scope state d).Stable (fun x => enterLocal procedure scope state x.2)
      (fun x => Kept d x.2) fun x => Full x.2 := by
  unfold enterLocal
  refine .andThen (d.type.resolve_stable state.1 scope) (fun _ _ => rfl) (fun _ => .binding) ?_
  intro type ty htype hkept hfull
  refine .state (y := { d with type }) (fun _ => ?_) (by dsimp only; split <;> rfl)
    (fun _ => .binding hkept) fun _ => hfull
  show (type.resolve state.1 scope).andThen _ _ = _
  rw [htype]
  rfl

theorem enterType_stable (t : SymbolTable) (d : Binding TypeExpr) :
    (enterType t d).Stable (enterType t) (Kept d) Full := by
  by_cases hfind : (t.find? SymbolTable.global d.name).isSome = true
  · have htree : enterType t d = _ := if_pos hfind
    rw [htree]
    exact .fail htree (.refl d)
  · have htree (type : TypeExpr) : enterType t { d with type } = _ := if_neg hfind
    rw [show enterType t d = _ from htree d.type]
    refine .andThen (d.type.resolve_stable t _) (fun y _ => htree y) (fun _ => .binding) ?_
    intro type ty htype hkept hfull
    refine .done ?_ (.binding hkept) hfull
    rw [htree, htype]
    rfl

theorem enterProcedure_stable (t : SymbolTable) (d : ProcDecl) :
    (enterProcedure t d).Stable (enterProcedure t) (Kept d) fun d' =>
      (∀ b ∈ d'.parameters, Full b) ∧ ∀ b ∈ d'.locals, Full b := by
  unfold enterProcedure
  refine .andThen (.thread (enterParameter_stable _) d.parameters _) (fun _ _ => rfl)
    (fun _ h => .procDecl h (.refl _) (.refl _)) ?_
  intro (t', parameters) signature hparameters hkept hfull
  refine .andThen (.thread (enterLocal_stable d.name _) d.locals (t', 0)) (fun _ _ => ?_)
    (fun _ h => .procDecl hkept h (.refl _)) ?_
  · show (Visit.thread (enterParameter _) _ parameters).andThen _ _ = _
    rw [show Visit.thread _ _ parameters = _ from hparameters]
    rfl
  · intro ((t'', total), locals) _ hlocals hkept' hfull'
    refine .done ?_ (.procDecl hkept hkept' (.refl _)) ⟨hfull, hfull'⟩
    show (Visit.thread (enterParameter _) _ parameters).andThen _ _ = _
    rw [show Visit.thread _ _ parameters = _ from hparameters, Visit.andThen_ok]
    show (Visit.thread (enterLocal _ _) _ locals).andThen _ _ = _
    rw [show Visit.thread _ _ locals = _ from hlocals]
    rfl

/-- The slots of the type expressions of a declaration are filled. -/
def Decl.HeadFull : Decl → Prop
  | .type d => Full d
  | .procedure d => (∀ b ∈ d.parameters, Full b) ∧ ∀ b ∈ d.locals, Full b

theorem enterDeclaration_stable (t : SymbolTable) (d : Decl) :
    (enterDeclaration t d).Stable (fun x => enterDeclaration t x.2) (fun x => Kept d x.2)
      fun x => x.2.HeadFull := by
  cases d with
  | type d =>
    have hrun (d : Binding TypeExpr) : enterDeclaration t (.type d) =
        (enterType t d).andThen (fun d => (t, .type d)) fun d t => .pure (t, .type d) () :=
      Visit.mapTree_andThen (enterType t d) Decl.type (fun d => (t, d)) fun d t => .pure (t, d) ()
    rw [hrun]
    refine .andThen (enterType_stable t d) (fun y _ => hrun y) (fun _ => .typeDeclaration) ?_
    intro d' t' hd hkept hfull
    refine .done ?_ (.typeDeclaration hkept) hfull
    rw [hrun, hd]
    rfl
  | procedure d =>
    have hrun (d : ProcDecl) : enterDeclaration t (.procedure d) =
        (enterProcedure t d).andThen (fun d => (t, .procedure d))
          fun d t => .pure (t, .procedure d) () :=
      Visit.mapTree_andThen (enterProcedure t d) Decl.procedure (fun d => (t, d))
        fun d t => .pure (t, d) ()
    rw [hrun]
    refine .andThen (enterProcedure_stable t d) (fun y _ => hrun y)
      (fun _ => .procedureDeclaration) ?_
    intro d' t' hd hkept hfull
    refine .done ?_ (.procedureDeclaration hkept) hfull
    rw [hrun, hd]
    rfl

/-! ## Bodies -/

section

variable (t : SymbolTable) (scope : ScopeId)

mutual

theorem Expr.check_stable : ∀ e : Expr,
    (e.check t scope).Stable (Expr.check t scope) (Kept e) Full
  | .literal p value slot => by
    rw [Expr.check]
    exact conclude_stable (fun _ => by rw [Expr.check]) (fun _ => .literal) fun _ hs =>
      List.forall_mem_singleton.2 hs
  | .designator p target slot => by
    rw [Expr.check]
    refine .andThen target.check_stable (fun _ _ => by rw [Expr.check])
      (fun _ => .designator (.refl slot)) ?_
    intro target' type htarget hkept hfull
    refine conclude_stable (fun _ => ?_) (fun _ hs => .designator hs hkept) fun _ hs =>
      List.forall_mem_cons.2 ⟨hs, hfull⟩
    rw [Expr.check, htarget, Visit.andThen_ok]
  | .unary p op operand slot => by
    rw [Expr.check]
    refine .andThen operand.check_stable (fun _ _ => by rw [Expr.check])
      (fun _ => .unary (.refl slot)) ?_
    intro operand' type hoperand hkept hfull
    refine conclude_stable (fun _ => ?_) (fun _ hs => .unary hs hkept) fun _ hs =>
      List.forall_mem_cons.2 ⟨hs, hfull⟩
    rw [Expr.check, hoperand, Visit.andThen_ok]
  | .binary p op left right slot => by
    rw [Expr.check]
    refine .andThen left.check_stable (fun _ _ => by rw [Expr.check])
      (fun _ h => .binary (.refl slot) h (.refl right)) ?_
    intro left' leftType hleft hkept hfull
    refine .andThen right.check_stable (fun _ _ => ?_)
      (fun _ => .binary (.refl slot) hkept) ?_
    · rw [Expr.check, hleft, Visit.andThen_ok]
    · intro right' rightType hright hkept' hfull'
      refine conclude_stable (fun _ => ?_) (fun _ hs => .binary hs hkept hkept') fun _ hs =>
        List.forall_mem_cons.2 ⟨hs, List.forall_mem_append.2 ⟨hfull, hfull'⟩⟩
      rw [Expr.check, hleft, Visit.andThen_ok, hright, Visit.andThen_ok]

theorem Designator.check_stable : ∀ d : Designator,
    (d.check t scope).Stable (Designator.check t scope) (Kept d) Full
  | .named p name slot => by
    rw [Designator.check]
    exact conclude_stable (fun _ => by rw [Designator.check]) (fun _ => .named) fun _ hs =>
      List.forall_mem_singleton.2 hs
  | .element p array index slot => by
    rw [Designator.check]
    refine .andThen index.check_stable (fun _ _ => by rw [Designator.check])
      (fun _ h => .element (.refl slot) (.refl array) h) ?_
    intro index' indexType hindex hkept hfull
    cases hc : checkIndex p indexType with
    | error e =>
      refine .fail ?_ (.element (.refl slot) (.refl array) hkept)
      rw [Designator.check, hindex, Visit.andThen_ok, hc]
    | ok _ =>
      refine .andThen array.check_stable (fun _ _ => ?_)
        (fun _ h => .element (.refl slot) h hkept) ?_
      · rw [Designator.check, hindex]
        show (match checkIndex p indexType with | .error e => _ | .ok () => _) = _
        rw [hc]
      · intro array' arrayType harray hkept' hfull'
        refine conclude_stable (fun _ => ?_) (fun _ hs => .element hs hkept' hkept) fun _ hs =>
          List.forall_mem_cons.2 ⟨hs, List.forall_mem_append.2 ⟨hfull', hfull⟩⟩
        rw [Designator.check, hindex, Visit.andThen_ok, hc]
        dsimp only
        rw [harray, Visit.andThen_ok]
  | .field p record name slot => by
    rw [Designator.check]
    refine .andThen record.check_stable (fun _ _ => by rw [Designator.check])
      (fun _ => .field (.refl slot)) ?_
    intro record' recordType hrecord hkept hfull
    refine conclude_stable (fun _ => ?_) (fun _ hs => .field hs hkept) fun _ hs =>
      List.forall_mem_cons.2 ⟨hs, hfull⟩
    rw [Designator.check, hrecord, Visit.andThen_ok]

end

theorem Call.check_stable (c : Call) :
    (c.check t scope).Stable (Call.check t scope) (Kept c) Full := by
  cases hparameters : parametersOf t scope c with
  | error e =>
    have hrun : c.check t scope = .fail c e := by
      unfold check
      rw [hparameters]
    rw [hrun]
    exact .fail hrun (.refl c)
  | ok parameters =>
    -- The number of arguments is that of the call before the visit.
    have hrun (es : List Expr) (h : Kept c.arguments es) :
        Call.check t scope { c with arguments := es } =
          (Visit.list (·.check t scope) es).andThen ({ c with arguments := · }) fun es types =>
            ⟨{ c with arguments := es }, do
              checkCount c parameters
              checkArguments c.procedure 1 es types parameters⟩ := by
      have hlength : es.length = c.arguments.length := by
        have hbare : es.map Expr.bare = c.arguments.map Expr.bare := h.bare
        simpa using congrArg List.length hbare
      have hcount : checkCount { c with arguments := es } parameters = checkCount c parameters := by
        unfold checkCount
        rw [hlength]
      unfold check
      rw [show parametersOf t scope { c with arguments := es } = .ok parameters from hparameters]
      dsimp only
      rw [hcount]
    rw [show c.check t scope = _ from hrun c.arguments (.refl _)]
    refine .andThen (.list fun e _ => e.check_stable t scope) hrun (fun _ => .arguments) ?_
    intro es types hes hkept hfull
    refine .done ?_ (.arguments hkept) hfull
    rw [hrun es hkept, hes]
    rfl

end

namespace Stmt

theorem full_compound {p : Position} {ss : List Stmt} (h : Full ss) :
    Full (Stmt.compound p ss) := by
  intro s hs
  have hs' : s ∈ slotsOf ss := hs
  rw [slotsOf_eq] at hs'
  exact h s hs'

mutual

theorem check_stable : ∀ (s : Stmt) (scope : ScopeId) (t : SymbolTable),
    (s.check scope t).Stable (fun x => x.2.check scope t) (fun x => Kept s x.2)
      fun x => Full x.2
  | .assign p target value, scope, t => by
    rw [check]
    refine .andThen (target.check_stable t scope) (fun _ _ => by rw [check])
      (fun _ h => .assign h (.refl value)) ?_
    intro target' type htarget hkept hfull
    refine .andThen (value.check_stable t scope) (fun _ _ => ?_) (fun _ => .assign hkept) ?_
    · rw [check, htarget, Visit.andThen_ok]
    · intro value' valueType hvalue hkept' hfull'
      refine .done ?_ (.assign hkept hkept') (List.forall_mem_append.2 ⟨hfull, hfull'⟩)
      rw [check, htarget, Visit.andThen_ok, hvalue, Visit.andThen_ok]
  | .ifElse p condition thenPart elsePart, scope, t => by
    rw [check]
    refine .andThen (condition.check_stable t scope) (fun _ _ => by rw [check])
      (fun _ h => .ifElse h (.refl _) (.refl _)) ?_
    intro condition' type hcondition hkept hfull
    cases hc : checkCondition p .ifCondition type with
    | error e =>
      refine .fail ?_ (.ifElse hkept (.refl _) (.refl _))
      rw [check, hcondition, Visit.andThen_ok, hc]
    | ok _ =>
      refine .andThen (thenPart.check_stable scope t) (fun _ _ => ?_)
        (fun _ h => .ifElse hkept h (.refl _)) ?_
      · rw [check, hcondition, Visit.andThen_ok, hc]
      · intro (t', thenPart') _ hthen hkept' hfull'
        refine .mapTree (elsePart.check_stable scope t') (fun _ => ?_)
          (fun _ => .ifElse hkept hkept') fun _ h =>
            List.forall_mem_append.2 ⟨hfull, List.forall_mem_append.2 ⟨hfull', h⟩⟩
        rw [check, hcondition, Visit.andThen_ok, hc]
        dsimp only
        rw [show thenPart'.check scope t = _ from hthen, Visit.andThen_ok]
  | .whileDo p condition body, scope, t => by
    rw [check]
    refine .andThen (condition.check_stable t scope) (fun _ _ => by rw [check])
      (fun _ h => .whileDo h (.refl _)) ?_
    intro condition' type hcondition hkept hfull
    cases hc : checkCondition p .whileCondition type with
    | error e =>
      refine .fail ?_ (.whileDo hkept (.refl _))
      rw [check, hcondition, Visit.andThen_ok, hc]
    | ok _ =>
      refine .mapTree (body.check_stable scope t) (fun _ => ?_) (fun _ => .whileDo hkept)
        fun _ h => List.forall_mem_append.2 ⟨hfull, h⟩
      rw [check, hcondition, Visit.andThen_ok, hc]
  | .call c, scope, t => by
    rw [check]
    exact .mapTree (c.check_stable t scope) (fun _ => by rw [check]) (fun _ => .call) fun _ h => h
  | .compound p statements, scope, t => by
    rw [check]
    exact .mapTree (checkList_stable statements _ _) (fun _ => by rw [check]; rfl)
      (fun _ => .compound) fun _ => full_compound
  | .empty p, scope, t => by
    rw [check]
    exact .done (by rw [check]; rfl) (.refl _) nofun

theorem checkList_stable : ∀ (ss : List Stmt) (scope : ScopeId) (t : SymbolTable),
    (checkList scope t ss).Stable (fun x => checkList scope t x.2) (fun x => Kept ss x.2)
      fun x => Full x.2
  | [], scope, t => by
    rw [checkList]
    exact .done (by rw [checkList]; rfl) .nil nofun
  | s :: ss, scope, t => by
    rw [checkList]
    refine .andThen (s.check_stable scope t) (fun _ _ => by rw [checkList])
      (fun _ h => .cons h (.refl ss)) ?_
    intro (t', s') _ hs hkept hfull
    refine .mapTree (checkList_stable ss scope t') (fun _ => ?_) (fun _ => .cons hkept)
      fun _ => hfull.cons
    rw [checkList, show s'.check scope t = _ from hs, Visit.andThen_ok]

end

end Stmt

/-- The slots of the body of a declaration are filled. -/
def Decl.BodyFull : Decl → Prop
  | .type _ => True
  | .procedure d => Full d.body

theorem Decl.checkBody_stable (t : SymbolTable) (d : Decl) :
    (d.checkBody t).Stable (fun x => x.2.checkBody t) (fun x => Kept d x.2)
      fun x => x.2.BodyFull := by
  cases d with
  | type d => exact .done rfl (.refl _) trivial
  | procedure d =>
    cases hd : t.procedure? d.name with
    | none =>
      have hrun (body : List Stmt) : checkBody t (.procedure { d with body }) =
          .fail (t, .procedure { d with body }) (.fault (.procedureNotEntered d.name)) := by
        unfold checkBody
        dsimp only
        rw [hd]
      rw [show checkBody t (.procedure d) = _ from hrun d.body]
      exact .fail (hrun d.body) (.refl _)
    | some P =>
      have hrun (body : List Stmt) : checkBody t (.procedure { d with body }) =
          (Stmt.checkList P.localScope t body).mapTree
            fun x => (x.1, .procedure { d with body := x.2 }) := by
        unfold checkBody
        dsimp only
        rw [hd]
      rw [show checkBody t (.procedure d) = _ from hrun d.body]
      exact .mapTree (Stmt.checkList_stable d.body P.localScope t) (fun x => hrun x.2)
        (fun _ h => .procedureDeclaration (.procDecl (.refl _) (.refl _) h)) fun _ h => h

end Spl
