import Spl.Proofs.SymbolTable.Growth
import Spl.Proofs.Tree.Slots
import Spl.Proofs.Outcome
import Spl.Proofs.Typing.Accepted
import Spl.Tree.Build

/-!
# Exactness of the check of bodies

The check of fresh bodies accepts exactly those that obey the rules. It then leaves in every slot
the type that the rules derive. Otherwise it ends in the error for the first rule that is broken,
and never in a fault.

* `Expr.check_decides`, `Designator.check_decides`: expressions and designators.
* `Call.check_decides`, `Stmt.check_decides`, `Stmt.checkList_decides`: statements.
* `enterDeclarations_bodies`: bodies are the same after the declarations have been entered.
* `checkBodies_exact`: programs.
-/

namespace Spl

variable {t : SymbolTable} {scope : ScopeId} {N : Meaning}

/-! ## The rules -/

/-- A node with an empty slot gets the type that its rule answers. -/
theorem conclude_decides {τ : Type} {slot : TypeSlot} {node : TypeSlot → τ} {rule : Verdict Ty}
    {D : Ty → Prop} {B : Failure SemanticError → Prop} {Q : τ → Ty → Prop}
    {F : τ → Failure SemanticError → Prop} (hs : slot.isEmpty = true) (hr : Decides D B rule)
    (hQ : ∀ ty, D ty → Q (node ⟨some ty⟩) ty) (hF : ∀ f, B f → F (node slot) f) :
    (conclude slot node rule).Decides Q F := by
  cases rule with
  | error f => exact hF f hr
  | ok ty =>
    have hfill : slot.fill ty = .ok ⟨some ty⟩ := by
      rw [TypeSlot.fill, TypeSlot.type?_of_isEmpty hs]
    simp only [conclude, hfill]
    exact hQ ty hr

/-- A visit that goes on if a rule is obeyed. -/
theorem guard_decides {τ α : Type} {D : Unit → Prop} {B : Failure SemanticError → Prop}
    {rule : Verdict Unit} {tree : τ} {next : SemanticVisit τ α} {Q : τ → α → Prop}
    {F : τ → Failure SemanticError → Prop} :
    Decides D B rule → (∀ f, B f → F tree f) → (D () → next.Decides Q F) →
      Visit.Decides Q F (match rule with | .error f => .fail tree f | .ok () => next) := by
  intro hr hF hn
  cases rule with
  | ok _ => exact hn hr
  | error f => exact hF f hr

theorem typeOfVariable_decides (p : Position) (name : String) (slot : TypeSlot) :
    Decides ((Designator.named p name slot).Derives (t.find? scope))
      (Failure.Due ((Designator.named p name slot).Breaks (t.find? scope)))
      (typeOfVariable t scope p name) := by
  unfold typeOfVariable
  cases h : t.find? scope name with
  | none => exact .report (.undefined h)
  | some e =>
    cases e with
    | var v => exact .named h
    | type _ => exact .report (.notAVariable h rfl)
    | proc _ => exact .report (.notAVariable h rfl)

theorem checkIndex_decides {p : Position} (array : Designator) {index : Expr} (slot : TypeSlot)
    {ty : Ty} (h : index.Derives N ty) :
    Decides (fun _ => index.Derives N .int)
      (Failure.Due ((Designator.element p array index slot).Breaks N)) (checkIndex p ty) := by
  unfold checkIndex
  by_cases hty : ty = .int
  · rw [if_pos hty]
    exact hty ▸ h
  · rw [if_neg hty]
    exact .report (.indexType h hty)

theorem typeOfElement_decides {p : Position} {array : Designator} {index : Expr} {slot : TypeSlot}
    {ty : Ty} (hi : index.Derives N .int) (ha : array.Derives N ty) :
    Decides ((Designator.element p array index slot).Derives N)
      (Failure.Due ((Designator.element p array index slot).Breaks N)) (typeOfElement p ty) := by
  cases ty with
  | array length base => exact .element hi ha
  | int => exact .report (.indexedType hi ha (by simp))
  | bool => exact .report (.indexedType hi ha (by simp))
  | record fields => exact .report (.indexedType hi ha (by simp))

theorem typeOfField_decides {p : Position} {record : Designator} {name : String} {slot : TypeSlot}
    {ty : Ty} (h : record.Derives N ty) :
    Decides ((Designator.field p record name slot).Derives N)
      (Failure.Due ((Designator.field p record name slot).Breaks N)) (typeOfField p name ty) := by
  cases ty with
  | record fields =>
    unfold typeOfField
    dsimp only
    cases hf : Ty.fieldType? fields name with
    | none => exact .report (.noSuchField h hf)
    | some ty => exact Designator.Derives.field h hf
  | int => exact .report (.notARecord h (by simp))
  | bool => exact .report (.notARecord h (by simp))
  | array length base => exact .report (.notARecord h (by simp))

theorem typeOfUnary_decides {p : Position} {op : UnaryOp} {e : Expr} {slot : TypeSlot} {ty : Ty}
    (h : e.Derives N ty) :
    Decides ((Expr.unary p op e slot).Derives N)
      (Failure.Due ((Expr.unary p op e slot).Breaks N)) (typeOfUnary p op ty) := by
  unfold typeOfUnary
  by_cases hty : ty = .bool
  · subst hty
    exact .report (.unary h)
  · rw [if_neg hty]
    exact .unary h hty

theorem typeOfBinary_decides {p : Position} {op : BinaryOp} {l r : Expr} {slot : TypeSlot}
    {ty ty' : Ty} (hl : l.Derives N ty) (hr : r.Derives N ty') :
    Decides ((Expr.binary p op l r slot).Derives N)
      (Failure.Due ((Expr.binary p op l r slot).Breaks N)) (typeOfBinary p op ty ty') := by
  unfold typeOfBinary
  by_cases h : ty = ty'
  · subst h
    rw [if_pos rfl]
    cases op with
    | arith op => exact .arith hl hr
    | compare op => exact .compare hl hr
  · rw [if_neg h]
    exact .report (.binary hl hr h)

theorem checkAssignment_decides {p : Position} {d : Designator} {e : Expr} {ty ty' : Ty}
    (hd : d.Derives N ty) (he : e.Derives N ty') :
    Decides (fun _ => (Stmt.assign p d e).Derivable N)
      (Failure.Due ((Stmt.assign p d e).Breaks N)) (checkAssignment p ty ty') := by
  -- both primitive types are compared with the value's type in the same way
  have hprim : ∀ {ty : Ty}, d.Derives N ty → ty.isAggregate = false →
      Decides (fun _ => (Stmt.assign p d e).Derivable N)
        (Failure.Due ((Stmt.assign p d e).Breaks N))
        (if ty = ty' then .ok () else Failure.report p (.assignment ty ty')) := by
    intro ty hd ha
    by_cases h : ty = ty'
    · subst h
      rw [if_pos rfl]
      exact .assign hd he ha
    · rw [if_neg h]
      exact .report (.assign hd he (.types ha h))
  cases ty with
  | array length base => exact .report (.assign hd he .array)
  | record fields => exact .report (.assign hd he .record)
  | int => exact hprim hd rfl
  | bool => exact hprim hd rfl

theorem checkCondition_decides {p : Position} {cause : Ty → SemanticError} {e : Expr} {ty : Ty}
    {B : Located SemanticError → Prop} (h : e.Derives N ty)
    (hB : ty ≠ .bool → B ⟨p, cause ty⟩) :
    Decides (fun _ => e.Derives N .bool) (Failure.Due B) (checkCondition p cause ty) := by
  unfold checkCondition
  by_cases hty : ty = .bool
  · rw [if_pos hty]
    exact hty ▸ h
  · rw [if_neg hty]
    exact .report (hB hty)

/-! ## Expressions and designators -/

/-- The check has found the type of an expression and filled all slots of it. -/
structure Expr.Typed (N : Meaning) (e e' : Expr) (ty : Ty) : Prop where
  same : e.Same e'
  derives : e.Derives N ty
  slots : SlotsExact N e'.nodes

/-- The check has stopped in an expression, at the first broken rule. -/
structure Expr.Stopped (N : Meaning) (e e' : Expr) (f : Failure SemanticError) : Prop where
  same : e.Same e'
  due : f.Due (e.Breaks N)
  slots : SlotsSound N e'.nodes

/-- The check has found the type of a designator and filled all slots of it. -/
structure Designator.Typed (N : Meaning) (d d' : Designator) (ty : Ty) : Prop where
  same : d.Same d'
  derives : d.Derives N ty
  slots : SlotsExact N d'.nodes

/-- The check has stopped in a designator, at the first broken rule. -/
structure Designator.Stopped (N : Meaning) (d d' : Designator) (f : Failure SemanticError) :
    Prop where
  same : d.Same d'
  due : f.Due (d.Breaks N)
  slots : SlotsSound N d'.nodes

/-- The step from the parts of an expression to the expression itself. -/
theorem Expr.conclude_decides {e : Expr} {slot : TypeSlot} {node : TypeSlot → Expr}
    {rule : Verdict Ty} {xs : List Node} (hs : slot.isEmpty = true)
    (hr : Decides (e.Derives N) (Failure.Due (e.Breaks N)) rule) (hx : SlotsExact N xs)
    (hsame : ∀ s, e.Same (node s)) (hslot : ∀ s, (node s).slot = s)
    (hnodes : ∀ s, (node s).nodes = .expr (node s) :: xs) :
    (conclude slot node rule).Decides (Expr.Typed N e) (Expr.Stopped N e) := by
  refine Spl.conclude_decides hs hr (fun ty h => ⟨hsame _, h, ?_⟩) fun f h => ⟨hsame _, h, ?_⟩
  · rw [hnodes]
    exact .cons (congrArg TypeSlot.type? (hslot _)) (h.congr (hsame _)) hx
  · rw [hnodes]
    exact .cons_empty ((congrArg TypeSlot.isEmpty (hslot slot)).trans hs) hx.sound

/-- The step from the parts of a designator to the designator itself. -/
theorem Designator.conclude_decides {d : Designator} {slot : TypeSlot}
    {node : TypeSlot → Designator} {rule : Verdict Ty} {xs : List Node}
    (hs : slot.isEmpty = true) (hr : Decides (d.Derives N) (Failure.Due (d.Breaks N)) rule)
    (hx : SlotsExact N xs) (hsame : ∀ s, d.Same (node s)) (hslot : ∀ s, (node s).slot = s)
    (hnodes : ∀ s, (node s).nodes = .designator (node s) :: xs) :
    (conclude slot node rule).Decides (Designator.Typed N d) (Designator.Stopped N d) := by
  refine Spl.conclude_decides hs hr (fun ty h => ⟨hsame _, h, ?_⟩) fun f h => ⟨hsame _, h, ?_⟩
  · rw [hnodes]
    exact .cons (congrArg TypeSlot.type? (hslot _)) (h.congr (hsame _)) hx
  · rw [hnodes]
    exact .cons_empty ((congrArg TypeSlot.isEmpty (hslot slot)).trans hs) hx.sound

mutual

/-- The check of an expression finds its type or its first broken rule. -/
theorem Expr.check_decides : ∀ (e : Expr), e.isFresh = true →
    (e.check t scope).Decides (e.Typed (t.find? scope)) (e.Stopped (t.find? scope))
  | .literal p value slot, hs => by
    unfold Expr.check
    have hx : SlotsExact (t.find? scope) [] := .nil
    exact Expr.conclude_decides hs Expr.Derives.literal hx (fun _ => .literal) (fun _ => rfl)
      fun _ => rfl
  | .designator p d slot, h => by
    simp only [Expr.isFresh, Bool.and_eq_true] at h
    obtain ⟨hs, hd⟩ := h
    unfold Expr.check
    refine (d.check_decides hd).andThen (fun d' f hf => ?_) fun d' ty hd' => ?_
    · exact ⟨.designator hf.same, hf.due.mono fun _ => .designator, .cons_empty hs hf.slots⟩
    · exact Expr.conclude_decides hs (.designator hd'.derives) hd'.slots
        (fun _ => .designator hd'.same) (fun _ => rfl) fun _ => rfl
  | .unary p op e slot, h => by
    simp only [Expr.isFresh, Bool.and_eq_true] at h
    obtain ⟨hs, he⟩ := h
    unfold Expr.check
    refine (e.check_decides he).andThen (fun e' f hf => ?_) fun e' ty he' => ?_
    · exact ⟨.unary hf.same, hf.due.mono fun _ => .operand, .cons_empty hs hf.slots⟩
    · exact Expr.conclude_decides hs (typeOfUnary_decides he'.derives) he'.slots
        (fun _ => .unary he'.same) (fun _ => rfl) fun _ => rfl
  | .binary p op l r slot, h => by
    simp only [Expr.isFresh, Bool.and_eq_true] at h
    obtain ⟨⟨hs, hl⟩, hr⟩ := h
    unfold Expr.check
    refine (l.check_decides hl).andThen (fun l' f hf => ?_) fun l' ty hl' => ?_
    · exact ⟨.binary hf.same (.refl r), hf.due.mono fun _ => .left,
        .cons_empty hs (hf.slots.append (Expr.slotsSound_of_isFresh hr))⟩
    refine (r.check_decides hr).andThen (fun r' f hf => ?_) fun r' ty' hr' => ?_
    · exact ⟨.binary hl'.same hf.same, hf.due.mono fun _ => .right hl'.derives,
        .cons_empty hs (hl'.slots.sound.append hf.slots)⟩
    · exact Expr.conclude_decides hs (typeOfBinary_decides hl'.derives hr'.derives)
        (hl'.slots.append hr'.slots) (fun _ => .binary hl'.same hr'.same) (fun _ => rfl)
        fun _ => rfl

/-- The check of a designator finds its type or its first broken rule. -/
theorem Designator.check_decides : ∀ (d : Designator), d.isFresh = true →
    (d.check t scope).Decides (d.Typed (t.find? scope)) (d.Stopped (t.find? scope))
  | .named p name slot, hs => by
    unfold Designator.check
    have hx : SlotsExact (t.find? scope) [] := .nil
    exact Designator.conclude_decides hs (typeOfVariable_decides p name slot) hx
      (fun _ => .named) (fun _ => rfl) fun _ => rfl
  | .element p array index slot, h => by
    simp only [Designator.isFresh, Bool.and_eq_true] at h
    obtain ⟨⟨hs, ha⟩, hi⟩ := h
    unfold Designator.check
    refine (index.check_decides hi).andThen (fun i' f hf => ?_) fun i' ty hi' => ?_
    · exact ⟨.element (.refl array) hf.same, hf.due.mono fun _ => .index,
        .cons_empty hs ((Designator.slotsSound_of_isFresh ha).append hf.slots)⟩
    refine guard_decides (checkIndex_decides array slot hi'.derives) (fun f hf => ?_) fun hint => ?_
    · exact ⟨.element (.refl array) hi'.same, hf,
        .cons_empty hs ((Designator.slotsSound_of_isFresh ha).append hi'.slots.sound)⟩
    refine (array.check_decides ha).andThen (fun a' f hf => ?_) fun a' ty' ha' => ?_
    · exact ⟨.element hf.same hi'.same, hf.due.mono fun _ => .array hint,
        .cons_empty hs (hf.slots.append hi'.slots.sound)⟩
    · exact Designator.conclude_decides hs (typeOfElement_decides hint ha'.derives)
        (ha'.slots.append hi'.slots) (fun _ => .element ha'.same hi'.same) (fun _ => rfl)
        fun _ => rfl
  | .field p record name slot, h => by
    simp only [Designator.isFresh, Bool.and_eq_true] at h
    obtain ⟨hs, hr⟩ := h
    unfold Designator.check
    refine (record.check_decides hr).andThen (fun r' f hf => ?_) fun r' ty hr' => ?_
    · exact ⟨.field hf.same, hf.due.mono fun _ => .record, .cons_empty hs hf.slots⟩
    · exact Designator.conclude_decides hs (typeOfField_decides hr'.derives) hr'.slots
        (fun _ => .field hr'.same) (fun _ => rfl) fun _ => rfl

end

/-! ## Calls -/

/-- The check has found the types of all arguments and filled all slots of them. -/
structure Expr.AllTyped (N : Meaning) (es es' : List Expr) (tys : List Ty) : Prop where
  same : List.Forall₂ Expr.Same es es'
  derives : List.Forall₂ (Expr.Derives N) es tys
  slots : SlotsExact N (es'.flatMap Expr.nodes)

/-- The check has stopped in an argument. -/
structure Expr.SomeStopped (N : Meaning) (es es' : List Expr) (f : Failure SemanticError) :
    Prop where
  same : List.Forall₂ Expr.Same es es'
  due : f.Due (Expr.SomeBreaks N es)
  slots : SlotsSound N (es'.flatMap Expr.nodes)

theorem Expr.checkAll_decides : ∀ (es : List Expr), (∀ e ∈ es, e.isFresh = true) →
    (Visit.list (·.check t scope) es).Decides (Expr.AllTyped (t.find? scope) es)
      (Expr.SomeStopped (t.find? scope) es)
  | [], _ => Expr.AllTyped.mk .nil .nil .nil
  | e :: es, h => by
    have hes : ∀ e ∈ es, e.isFresh = true := fun e' he' => h e' (.tail _ he')
    unfold Visit.list
    refine (e.check_decides (h e (.head _))).andThen (fun e' f hf => ?_) fun e' ty he' => ?_
    · exact ⟨.cons hf.same (forall₂_same_refl es), hf.due.mono fun _ => .here,
        hf.slots.append (Expr.slotsSound_flatMap hes)⟩
    refine .map (.mapTree ((Expr.checkAll_decides es hes).mono ?_ ?_))
    · intro es' tys hes'
      exact ⟨.cons he'.same hes'.same, .cons he'.derives hes'.derives, he'.slots.append hes'.slots⟩
    · intro es' f hf
      exact ⟨.cons he'.same hf.same, hf.due.mono fun _ => .later he'.derives,
        he'.slots.sound.append hf.slots⟩

theorem Expr.Same.position_eq {e e' : Expr} (h : e.Same e') : e'.position = e.position := by
  cases h <;> rfl

theorem Expr.Same.isNone_designator? {e e' : Expr} (h : e.Same e') :
    e'.designator?.isNone = e.designator?.isNone := by
  cases h <;> rfl

/-- An argument of a known type is taken by its parameter or does not match it. -/
theorem checkArgument_decides {procedure : String} {n : Nat} {e e' : Expr} {es : List Expr}
    {v : Variable} {vs : List Variable} {ty : Ty} (hs : e.Same e') (hd : e.Derives N ty) :
    Decides (fun _ => v.Takes N e)
      (Failure.Due (Call.Mismatch N procedure n (e :: es) (v :: vs)))
      (checkArgument procedure n e' ty v) := by
  unfold checkArgument
  rw [hs.position_eq, hs.isNone_designator?]
  by_cases hty : ty = v.type
  · subst hty
    rw [if_neg (by simp)]
    by_cases hr : v.isReference = true ∧ e.designator?.isNone = true
    · rw [if_pos hr]
      exact .report (.reference hd hr.1 (Option.isNone_iff_eq_none.1 hr.2))
    · rw [if_neg hr]
      refine ⟨hd, fun href => ?_⟩
      cases he : e.designator? with
      | some d => rfl
      | none => exact absurd ⟨href, by rw [he]; rfl⟩ hr
  · rw [if_pos hty]
    exact .report (.type hd hty)

/-- Arguments of known types, as many as there are parameters, are taken by them, or one does not
match. -/
theorem checkArguments_decides (procedure : String) : ∀ (n : Nat) {es es' : List Expr}
    {tys : List Ty} {vs : List Variable}, List.Forall₂ Expr.Same es es' →
    List.Forall₂ (Expr.Derives N) es tys → es.length = vs.length →
    Decides (fun _ => List.Forall₂ (Variable.Takes N) es vs)
      (Failure.Due (Call.Mismatch N procedure n es vs))
      (checkArguments procedure n es' tys vs)
  | _, [], _, _, [], .nil, .nil, _ => List.Forall₂.nil
  | n, e :: es, _, _, v :: vs, .cons hs hss, .cons hd hds, hl => by
    unfold checkArguments
    refine (checkArgument_decides hs hd).bind (fun _ ht => ?_) fun _ hf => hf
    refine (checkArguments_decides procedure (n + 1) hss hds (by simpa using hl)).mono ?_ ?_
    · intro _ hts
      exact .cons ht hts
    · intro f hf
      exact hf.mono fun _ => .later ht

theorem checkCount_decides {c : Call} (c' : Call) {P : Procedure} (hn : c'.arguments.length =
    c.arguments.length) (hname : c'.procedure = c.procedure) (hp : c'.position = c.position)
    (hP : N c.procedure = some (.proc P)) (hes : ∀ e ∈ c.arguments, ∃ ty, e.Derives N ty) :
    Decides (fun _ => c.arguments.length = P.parameters.length) (Failure.Due (c.Breaks N))
      (checkCount c' P.parameters) := by
  unfold checkCount
  rw [hn, hname, hp]
  by_cases h₁ : P.parameters.length < c.arguments.length
  · rw [if_pos h₁]
    exact .report (.tooMany hP hes h₁)
  · rw [if_neg h₁]
    by_cases h₂ : c.arguments.length < P.parameters.length
    · rw [if_pos h₂]
      exact .report (.tooFew hP hes h₂)
    · rw [if_neg h₂]
      show c.arguments.length = P.parameters.length
      omega

theorem parametersOf_decides (c : Call) :
    Decides (fun vs => ∃ P, t.find? scope c.procedure = some (.proc P) ∧ P.parameters = vs)
      (Failure.Due (c.Breaks (t.find? scope))) (parametersOf t scope c) := by
  unfold parametersOf
  cases h : t.find? scope c.procedure with
  | none => exact .report (.undefined h)
  | some e =>
    cases e with
    | proc P => exact ⟨P, rfl, rfl⟩
    | type _ => exact .report (.notAProcedure h rfl)
    | var _ => exact .report (.notAProcedure h rfl)

/-- The check of a call accepts exactly the derivable ones. -/
theorem Call.check_decides (c : Call) (h : ∀ e ∈ c.arguments, e.isFresh = true) :
    (c.check t scope).Decides
      (fun c' _ => (Stmt.call c).Same (.call c') ∧ c.Derivable (t.find? scope) ∧
        SlotsExact (t.find? scope) (Stmt.call c').nodes)
      (fun c' f => (Stmt.call c).Same (.call c') ∧ f.Due (c.Breaks (t.find? scope)) ∧
        SlotsSound (t.find? scope) (Stmt.call c').nodes) := by
  obtain ⟨p, procedure, es⟩ := c
  have hp : Decides _ _ (parametersOf t scope ⟨p, procedure, es⟩) := parametersOf_decides _
  unfold Call.check
  cases hvs : parametersOf t scope ⟨p, procedure, es⟩ with
  | error f =>
    rw [hvs] at hp
    exact ⟨.call (Expr.forall₂_same_refl es), hp, Expr.slotsSound_flatMap h⟩
  | ok vs =>
    rw [hvs] at hp
    obtain ⟨P, hP, rfl⟩ := hp
    refine (Expr.checkAll_decides es h).andThen (fun es' f hf => ?_) fun es' tys hes => ?_
    · exact ⟨.call hf.same, hf.due.mono fun _ => .argument hP, hf.slots⟩
    have hall : ∀ e ∈ es, ∃ ty, e.Derives (t.find? scope) ty :=
      (List.forall₂_and_left _ _).1 (hes.derives.imp fun _ ty h => ⟨⟨ty, h⟩, h⟩) |>.1
    have hc := (checkCount_decides ⟨p, procedure, es⟩ rfl rfl rfl hP hall).bind
      (fun _ hl => (checkArguments_decides procedure 1 hes.same hes.derives hl).mono
        (fun _ hts => (⟨P, hP, hts⟩ : Call.Derivable _ ⟨p, procedure, es⟩))
        (fun f hf => hf.mono fun _ => Call.Breaks.mismatch hP hall hl)) fun _ hf => hf
    exact hc.mono (fun _ hd => ⟨.call hes.same, hd, hes.slots⟩)
      fun f hf => ⟨.call hes.same, hf, hes.slots.sound⟩

/-! ## Statements -/

/-- Names keep their meaning when a table grows by empty scopes. -/
theorem SymbolTable.Extends.find?_eq {t' : SymbolTable} (h : t.Extends t') (hc : t.Closed scope) :
    t'.find? scope = t.find? scope :=
  funext (SymbolTable.find?_of_extends h hc)

namespace Stmt

/-- The check has accepted a statement and filled all slots of it. -/
structure Typed (t : SymbolTable) (scope : ScopeId) (s : Stmt) (v : SymbolTable × Stmt) : Prop where
  ext : t.Extends v.1
  same : s.Same v.2
  derivable : s.Derivable (t.find? scope)
  slots : SlotsExact (t.find? scope) v.2.nodes

/-- The check has stopped in a statement, at the first broken rule. -/
structure Stopped (t : SymbolTable) (scope : ScopeId) (s : Stmt) (v : SymbolTable × Stmt)
    (f : Failure SemanticError) : Prop where
  ext : t.Extends v.1
  same : s.Same v.2
  due : f.Due (s.Breaks (t.find? scope))
  slots : SlotsSound (t.find? scope) v.2.nodes

/-- The check has accepted a list of statements and filled all slots of it. -/
structure AllTyped (t : SymbolTable) (scope : ScopeId) (ss : List Stmt)
    (v : SymbolTable × List Stmt) : Prop where
  ext : t.Extends v.1
  same : SameAll ss v.2
  derivable : ∀ s ∈ ss, s.Derivable (t.find? scope)
  slots : SlotsExact (t.find? scope) (nodesOf v.2)

/-- The check has stopped in a list of statements, at the first broken rule. -/
structure SomeStopped (t : SymbolTable) (scope : ScopeId) (ss : List Stmt)
    (v : SymbolTable × List Stmt) (f : Failure SemanticError) : Prop where
  ext : t.Extends v.1
  same : SameAll ss v.2
  due : f.Due (SomeBreaks (t.find? scope) ss)
  slots : SlotsSound (t.find? scope) (nodesOf v.2)

/-- What holds of a statement in a table that has grown by empty scopes. -/
theorem Typed.of_extends {t₁ : SymbolTable} {s : Stmt} {v : SymbolTable × Stmt}
    (h : Typed t₁ scope s v) (hx : t.Extends t₁) (hc : t.Closed scope) : Typed t scope s v := by
  obtain ⟨hxv, hs, hd, hn⟩ := h
  rw [hx.find?_eq hc] at hd hn
  exact ⟨hx.trans hxv, hs, hd, hn⟩

theorem Stopped.of_extends {t₁ : SymbolTable} {s : Stmt} {v : SymbolTable × Stmt}
    {f : Failure SemanticError} (h : Stopped t₁ scope s v f) (hx : t.Extends t₁)
    (hc : t.Closed scope) : Stopped t scope s v f := by
  obtain ⟨hxv, hs, hd, hn⟩ := h
  rw [hx.find?_eq hc] at hd hn
  exact ⟨hx.trans hxv, hs, hd, hn⟩

theorem AllTyped.of_extends {t₁ : SymbolTable} {ss : List Stmt} {v : SymbolTable × List Stmt}
    (h : AllTyped t₁ scope ss v) (hx : t.Extends t₁) (hc : t.Closed scope) :
    AllTyped t scope ss v := by
  obtain ⟨hxv, hs, hd, hn⟩ := h
  rw [hx.find?_eq hc] at hd hn
  exact ⟨hx.trans hxv, hs, hd, hn⟩

theorem SomeStopped.of_extends {t₁ : SymbolTable} {ss : List Stmt} {v : SymbolTable × List Stmt}
    {f : Failure SemanticError} (h : SomeStopped t₁ scope ss v f) (hx : t.Extends t₁)
    (hc : t.Closed scope) : SomeStopped t scope ss v f := by
  obtain ⟨hxv, hs, hd, hn⟩ := h
  rw [hx.find?_eq hc] at hd hn
  exact ⟨hx.trans hxv, hs, hd, hn⟩

mutual

/-- The check of a statement accepts it or finds its first broken rule. -/
theorem check_decides : ∀ (s : Stmt) {t : SymbolTable} {scope : ScopeId},
    t.Closed scope → s.isFresh = true →
    (s.check scope t).Decides (fun v _ => s.Typed t scope v) (s.Stopped t scope)
  | .assign p d e, t, scope, _, h => by
    simp only [isFresh, Bool.and_eq_true] at h
    obtain ⟨hd, he⟩ := h
    unfold check
    refine (d.check_decides hd).andThen (fun d' f hf => ?_) fun d' ty hd' => ?_
    · exact ⟨.refl t, .assign hf.same (.refl e), hf.due.mono fun _ => .target,
        hf.slots.append (Expr.slotsSound_of_isFresh he)⟩
    refine (e.check_decides he).andThen (fun e' f hf => ?_) fun e' ty' he' => ?_
    · exact ⟨.refl t, .assign hd'.same hf.same, hf.due.mono fun _ => .value hd'.derives,
        hd'.slots.sound.append hf.slots⟩
    refine (checkAssignment_decides hd'.derives he'.derives).mono (fun _ ha => ?_) fun f hf => ?_
    · exact ⟨.refl t, .assign hd'.same he'.same, ha, hd'.slots.append he'.slots⟩
    · exact ⟨.refl t, .assign hd'.same he'.same, hf, (hd'.slots.append he'.slots).sound⟩
  | .ifElse p e s₁ s₂, t, scope, hc, h => by
    simp only [isFresh, Bool.and_eq_true] at h
    obtain ⟨⟨he, h₁⟩, h₂⟩ := h
    have hfresh₁ : SlotsSound (t.find? scope) s₁.nodes := slotsSound_of_isFresh h₁
    have hfresh₂ : SlotsSound (t.find? scope) s₂.nodes := slotsSound_of_isFresh h₂
    unfold check
    refine (e.check_decides he).andThen (fun e' f hf => ?_) fun e' ty he' => ?_
    · exact ⟨.refl t, .ifElse hf.same (.refl s₁) (.refl s₂), hf.due.mono fun _ => .ifCondition,
        hf.slots.append (hfresh₁.append hfresh₂)⟩
    refine guard_decides (checkCondition_decides (B := (ifElse p e s₁ s₂).Breaks _) he'.derives
      fun hty => .ifType he'.derives hty) (fun f hf => ?_) fun hb => ?_
    · exact ⟨.refl t, .ifElse he'.same (.refl s₁) (.refl s₂), hf,
        he'.slots.sound.append (hfresh₁.append hfresh₂)⟩
    refine (s₁.check_decides hc h₁).andThen (fun v f hf => ?_) fun v _ hv₁ => ?_
    · exact ⟨hf.ext, .ifElse he'.same hf.same (.refl s₂), hf.due.mono fun _ => .thenPart hb,
        he'.slots.sound.append (hf.slots.append hfresh₂)⟩
    obtain ⟨t₁, s₁'⟩ := v
    refine .mapTree ((s₂.check_decides (hv₁.ext.closed hc) h₂).mono (fun v _ hv₂ => ?_)
      fun v f hf => ?_)
    · replace hv₂ := hv₂.of_extends hv₁.ext hc
      exact ⟨hv₂.ext, .ifElse he'.same hv₁.same hv₂.same,
        .ifElse hb hv₁.derivable hv₂.derivable, he'.slots.append (hv₁.slots.append hv₂.slots)⟩
    · replace hf := hf.of_extends hv₁.ext hc
      exact ⟨hf.ext, .ifElse he'.same hv₁.same hf.same,
        hf.due.mono fun _ => .elsePart hb hv₁.derivable,
        he'.slots.sound.append (hv₁.slots.sound.append hf.slots)⟩
  | .whileDo p e s, t, scope, hc, h => by
    simp only [isFresh, Bool.and_eq_true] at h
    obtain ⟨he, hs⟩ := h
    have hfresh : SlotsSound (t.find? scope) s.nodes := slotsSound_of_isFresh hs
    unfold check
    refine (e.check_decides he).andThen (fun e' f hf => ?_) fun e' ty he' => ?_
    · exact ⟨.refl t, .whileDo hf.same (.refl s), hf.due.mono fun _ => .whileCondition,
        hf.slots.append hfresh⟩
    refine guard_decides (checkCondition_decides (B := (whileDo p e s).Breaks _) he'.derives
      fun hty => .whileType he'.derives hty) (fun f hf => ?_) fun hb => ?_
    · exact ⟨.refl t, .whileDo he'.same (.refl s), hf, he'.slots.sound.append hfresh⟩
    refine .mapTree ((s.check_decides hc hs).mono (fun v _ hv => ?_) fun v f hf => ?_)
    · exact ⟨hv.ext, .whileDo he'.same hv.same, .whileDo hb hv.derivable,
        he'.slots.append hv.slots⟩
    · exact ⟨hf.ext, .whileDo he'.same hf.same, hf.due.mono fun _ => .body hb,
        he'.slots.sound.append hf.slots⟩
  | .call c, t, scope, _, h => by
    simp only [isFresh, List.all_eq_true] at h
    unfold check
    refine .mapTree ((c.check_decides h).mono (fun c' _ hc' => ?_) fun c' f hf => ?_)
    · obtain ⟨hs, hd, hn⟩ := hc'
      exact ⟨.refl t, hs, .call hd, hn⟩
    · obtain ⟨hs, hd, hn⟩ := hf
      exact ⟨.refl t, hs, hd.mono fun _ => .call, hn⟩
  | .compound p ss, t, scope, hc, h => by
    unfold check
    -- names mean the same in the scope of the statement as around it
    have hN : (t.newScope scope).2.find? (t.newScope scope).1 = t.find? scope :=
      funext (SymbolTable.find?_newScope hc)
    have hx := SymbolTable.Extends.newScope t scope
    refine .mapTree ((checkList_decides ss (SymbolTable.closed_newScope hc) h).mono
      (fun v _ hv => ?_) fun v f hf => ?_)
    · obtain ⟨hxv, hs, hd, hn⟩ := hv
      rw [hN] at hd hn
      exact ⟨hx.trans hxv, .compound hs, .compound hd, hn⟩
    · obtain ⟨hxv, hs, hd, hn⟩ := hf
      rw [hN] at hd hn
      exact ⟨hx.trans hxv, .compound hs, hd.mono fun _ => .compound, hn⟩
  | .empty p, t, scope, _, _ => Typed.mk (.refl t) .empty .empty .nil

/-- The check of a list of statements accepts them or finds their first broken rule. -/
theorem checkList_decides : ∀ (ss : List Stmt) {t : SymbolTable} {scope : ScopeId},
    t.Closed scope → allFresh ss = true →
    (checkList scope t ss).Decides (fun v _ => AllTyped t scope ss v) (SomeStopped t scope ss)
  | [], t, scope, _, _ => AllTyped.mk (.refl t) .nil (by simp) .nil
  | s :: ss, t, scope, hc, h => by
    simp only [allFresh, Bool.and_eq_true] at h
    obtain ⟨hs, hss⟩ := h
    unfold checkList
    refine (s.check_decides hc hs).andThen (fun v f hf => ?_) fun v _ hv => ?_
    · exact ⟨hf.ext, .cons hf.same (.refl ss), hf.due.mono fun _ => .here,
        hf.slots.append (slotsSound_of_allFresh hss)⟩
    obtain ⟨t₁, s'⟩ := v
    refine .mapTree ((checkList_decides ss (hv.ext.closed hc) hss).mono (fun w _ hw => ?_)
      fun w f hf => ?_)
    · replace hw := hw.of_extends hv.ext hc
      exact ⟨hw.ext, .cons hv.same hw.same, List.forall_mem_cons.2 ⟨hv.derivable, hw.derivable⟩,
        hv.slots.append hw.slots⟩
    · replace hf := hf.of_extends hv.ext hc
      exact ⟨hf.ext, .cons hv.same hf.same, hf.due.mono fun _ => .later hv.derivable,
        hv.slots.sound.append hf.slots⟩

end

end Stmt

/-! ## Programs -/

namespace ProcDecl

/-- All slots of a body hold the types that the rules derive. -/
def SlotsExact (t : SymbolTable) (d : ProcDecl) : Prop :=
  ∃ P, t.procedure? d.name = some P ∧ Spl.SlotsExact (t.find? P.localScope) (Stmt.nodesOf d.body)

/-- All slots of a body are empty or hold the types that the rules derive. -/
def SlotsSound (t : SymbolTable) (d : ProcDecl) : Prop :=
  ∃ P, t.procedure? d.name = some P ∧ Spl.SlotsSound (t.find? P.localScope) (Stmt.nodesOf d.body)

theorem SlotsExact.sound {d : ProcDecl} (h : d.SlotsExact t) : d.SlotsSound t := by
  obtain ⟨P, hP, hs⟩ := h
  exact ⟨P, hP, hs.sound⟩

end ProcDecl

/-- The check has accepted the bodies of declarations and filled all slots of them. -/
structure Decl.AllTyped (t : SymbolTable) (ds : List Decl) (v : SymbolTable × List Decl) :
    Prop where
  ext : t.Extends v.1
  same : List.Forall₂ Decl.Same ds v.2
  derivable : ∀ d ∈ ds.filterMap Decl.procedure?, d.Derivable t
  slots : ∀ d ∈ v.2.filterMap Decl.procedure?, d.SlotsExact t

/-- The check has stopped in the body of a declaration, at the first broken rule. -/
structure Decl.SomeStopped (t : SymbolTable) (ds : List Decl) (v : SymbolTable × List Decl)
    (f : Failure SemanticError) : Prop where
  ext : t.Extends v.1
  same : List.Forall₂ Decl.Same ds v.2
  due : f.Due (ProcDecl.SomeBreaks t (ds.filterMap Decl.procedure?))
  slots : ∀ d ∈ v.2.filterMap Decl.procedure?, d.SlotsSound t

/-- What a body needs to be checked: its procedure is in the table and its slots are empty. -/
structure ProcDecl.Ready (t : SymbolTable) (d : ProcDecl) : Prop where
  procedure : ∃ P, t.procedure? d.name = some P ∧ t.Closed P.localScope
  fresh : Stmt.allFresh d.body = true

theorem ProcDecl.Ready.slotsSound {d : ProcDecl} (h : d.Ready t) : d.SlotsSound t := by
  obtain ⟨P, hP, -⟩ := h.procedure
  exact ⟨P, hP, Stmt.slotsSound_of_allFresh h.fresh⟩

/-- The check of a body in a table that has grown accepts it or finds its first broken rule. -/
theorem ProcDecl.checkBody_decides {t' : SymbolTable} {d : ProcDecl} (h : d.Ready t)
    (hg : t.HasScope SymbolTable.global) (hx : t.Extends t') :
    (Decl.checkBody t' (.procedure d)).Decides
      (fun v _ => t.Extends v.1 ∧ ∃ d', v.2 = .procedure d' ∧ d.Same d' ∧ d.Derivable t ∧
        d'.SlotsExact t)
      (fun v f => t.Extends v.1 ∧ ∃ d', v.2 = .procedure d' ∧ d.Same d' ∧
        f.Due (fun x => ∀ ds, ProcDecl.SomeBreaks t (d :: ds) x) ∧ d'.SlotsSound t) := by
  obtain ⟨⟨P, hP, hc⟩, hf⟩ := h
  unfold Decl.checkBody
  dsimp only
  rw [(hx.grows hg).procedure? hP]
  refine .mapTree ((Stmt.checkList_decides d.body (hx.closed hc) hf).mono (fun v _ hv => ?_)
    fun v f hv => ?_)
  · replace hv := hv.of_extends hx hc
    exact ⟨hv.ext, _, rfl, ⟨rfl, hv.same⟩, ⟨P, hP, hv.derivable⟩, P, hP, hv.slots⟩
  · replace hv := hv.of_extends hx hc
    exact ⟨hv.ext, _, rfl, ⟨rfl, hv.same⟩, hv.due.mono fun _ h _ => .here hP h, P, hP, hv.slots⟩

theorem Decl.forall_procedure_cons {P : ProcDecl → Prop} {d : ProcDecl} {ds : List Decl} :
    (∀ d' ∈ (Decl.procedure d :: ds).filterMap Decl.procedure?, P d') ↔
      P d ∧ ∀ d' ∈ ds.filterMap Decl.procedure?, P d' :=
  List.forall_mem_cons

theorem Decl.Same.refl : ∀ d : Decl, d.Same d
  | .type _ => .type
  | .procedure d => .procedure ⟨rfl, .refl d.body⟩

/-- The check of a list of declarations accepts their bodies or finds their first broken rule. -/
theorem Decl.checkAll_decides (hg : t.HasScope SymbolTable.global) : ∀ (ds : List Decl)
    {t' : SymbolTable}, t.Extends t' → (∀ d ∈ ds.filterMap Decl.procedure?, d.Ready t) →
    (Visit.thread Decl.checkBody t' ds).Decides (fun v _ => Decl.AllTyped t ds v)
      (Decl.SomeStopped t ds)
  | [], _, hx, _ => Decl.AllTyped.mk hx .nil (fun _ h => nomatch h) fun _ h => nomatch h
  | .type d :: ds, t', hx, h => by
    refine .map (.mapTree ((Decl.checkAll_decides hg ds hx h).mono (fun v _ hv => ?_)
      fun v f hf => ?_))
    · exact ⟨hv.ext, .cons .type hv.same, hv.derivable, hv.slots⟩
    · exact ⟨hf.ext, .cons .type hf.same, hf.due, hf.slots⟩
  | .procedure d :: ds, t', hx, h => by
    obtain ⟨hd, hds⟩ := Decl.forall_procedure_cons.1 h
    unfold Visit.thread
    refine (d.checkBody_decides hd hg hx).andThen (fun v f hf => ?_) fun v _ hv => ?_
    · obtain ⟨t₁, d₁⟩ := v
      obtain ⟨hx₁, d', rfl, hs, hdue, hn⟩ := hf
      exact ⟨hx₁, .cons (.procedure hs) (List.forall₂_same.2 fun d _ => .refl d),
        hdue.mono fun x hb => hb _,
        Decl.forall_procedure_cons.2 ⟨hn, fun d hd => (hds d hd).slotsSound⟩⟩
    obtain ⟨t₁, d₁⟩ := v
    obtain ⟨hx₁, d', rfl, hs, hder, hn⟩ := hv
    refine .map (.mapTree ((Decl.checkAll_decides hg ds hx₁ hds).mono (fun w _ hw => ?_)
      fun w f hf => ?_))
    · exact ⟨hw.ext, .cons (.procedure hs) hw.same,
        Decl.forall_procedure_cons.2 ⟨hder, hw.derivable⟩,
        Decl.forall_procedure_cons.2 ⟨hn, hw.slots⟩⟩
    · exact ⟨hf.ext, .cons (.procedure hs) hf.same, hf.due.mono fun _ hb => .later hder hb,
        Decl.forall_procedure_cons.2 ⟨hn.sound, hf.slots⟩⟩

/-- The check of the bodies of a program accepts them or finds their first broken rule. -/
theorem checkBodies_decides {p : Program} (hH : t.Holds p.heads)
    (hf : ∀ d ∈ p.procedures, Stmt.allFresh d.body = true) :
    (checkBodies t p).Decides
      (fun v _ => p.Same v.2 ∧ Decl.AllTyped t p.declarations (v.1, v.2.declarations))
      (fun v f => p.Same v.2 ∧ Decl.SomeStopped t p.declarations (v.1, v.2.declarations) f) := by
  have hready : ∀ d ∈ p.procedures, d.Ready t := by
    intro d hd
    obtain ⟨P, hP⟩ := hH.declares d.head (List.mem_map_of_mem hd)
    exact ⟨⟨P, hP.procedure, hP.closed hH.hasScope⟩, hf d hd⟩
  refine .map (.mapTree ((Decl.checkAll_decides hH.hasScope p.declarations (.refl t) hready).mono
    (fun v _ hv => ?_) fun v f hv => ?_))
  · exact ⟨⟨rfl, hv.same⟩, hv⟩
  · exact ⟨⟨rfl, hv.same⟩, hv⟩

/-! ## Bodies while declarations are entered -/

theorem enterProcedure_body (t : SymbolTable) (d : ProcDecl) :
    (enterProcedure t d).tree.name = d.name ∧ (enterProcedure t d).tree.body = d.body := by
  unfold enterProcedure
  refine Visit.tree_andThen (P := fun q : ProcDecl => q.name = d.name ∧ q.body = d.body)
    ⟨rfl, rfl⟩ fun _ => ?_
  exact Visit.tree_andThen (P := fun q : ProcDecl => q.name = d.name ∧ q.body = d.body)
    ⟨rfl, rfl⟩ fun _ => ⟨rfl, rfl⟩

theorem enterDeclaration_body (t : SymbolTable) (d : Decl) :
    (enterDeclaration t d).tree.2.procedure?.map (fun q => (q.name, q.body)) =
      d.procedure?.map fun q => (q.name, q.body) := by
  unfold enterDeclaration
  cases d with
  | type d =>
    exact Visit.tree_andThen (P := fun v : SymbolTable × Decl =>
      v.2.procedure?.map (fun q => (q.name, q.body)) = none) rfl fun _ => rfl
  | procedure d =>
    have h : some ((enterProcedure t d).tree.name, (enterProcedure t d).tree.body) =
        some (d.name, d.body) := by
      obtain ⟨hn, hb⟩ := enterProcedure_body t d
      rw [hn, hb]
    exact Visit.tree_andThen (P := fun v : SymbolTable × Decl =>
      v.2.procedure?.map (fun q => (q.name, q.body)) = some (d.name, d.body)) h fun _ => h

/-- Entering the declarations of a program keeps the names and the bodies of its procedures. -/
theorem enterDeclarations_bodies (entry : String) (p : Program) :
    (enterDeclarations entry p).tree.procedures.map (fun d => (d.name, d.body)) =
      p.procedures.map fun d => (d.name, d.body) := by
  have h := Visit.map_procedures_thread (f := fun d => (d.name, d.body)) enterDeclaration_body
    .predefined p.declarations
  unfold enterDeclarations
  exact Visit.tree_andThen (P := fun q : Program => q.procedures.map (fun d => (d.name, d.body)) =
    p.procedures.map fun d => (d.name, d.body)) h fun _ => h

/-- Bodies are still fresh when the declarations have been entered. -/
theorem allFresh_enterDeclarations {entry : String} {p : Program}
    (h : ∀ d ∈ p.procedures, Stmt.allFresh d.body = true) :
    ∀ d ∈ (enterDeclarations entry p).tree.procedures, Stmt.allFresh d.body = true := by
  intro d hd
  have hm : (d.name, d.body) ∈ p.procedures.map fun d => (d.name, d.body) := by
    rw [← enterDeclarations_bodies entry p]
    exact List.mem_map_of_mem hd
  obtain ⟨d₀, hd₀, heq⟩ := List.mem_map.1 hm
  have hb : d₀.body = d.body := congrArg Prod.snd heq
  rw [← hb]
  exact h d₀ hd₀

/-- The check of bodies is exact. Let the declarations of a program have been entered, and the slots
of its bodies be empty. Then the check succeeds exactly if all bodies obey the rules, and every slot
of a body then holds the one type that the rules derive for its node. If it fails, then with the
error for the first broken rule, and the slots that it has filled hold derived types. In both cases
it changes nothing in the program but slots of bodies, and adds to the table but empty scopes. -/
theorem checkBodies_exact {entry : String} {p : Program} {t : SymbolTable}
    (ht : (enterDeclarations entry p).answer = .ok t)
    (hf : ∀ d ∈ p.procedures, Stmt.allFresh d.body = true) :
    let q := (enterDeclarations entry p).tree
    let v := checkBodies t q
    (v.answer = .ok () ↔ ∀ d ∈ q.procedures, d.Derivable t) ∧
      (v.answer = .ok () → ∀ d ∈ v.tree.2.procedures, ∃ P, t.procedure? d.name = some P ∧
        ∀ x ∈ Stmt.nodesOf d.body, ∃ ty, x.slot.type? = some ty ∧
          ∀ ty', x.Derives (t.find? P.localScope) ty' ↔ ty' = ty) ∧
      (v.answer ≠ .ok () →
        (∃ x, v.answer = .error (.error x) ∧ ProcDecl.SomeBreaks t q.procedures x) ∧
        ∀ d ∈ v.tree.2.procedures, d.SlotsSound t) ∧
      q.Same v.tree.2 ∧ t.Extends v.tree.1 := by
  intro q v
  have hH : t.Holds q.heads :=
    ((enterDeclarations_meets (A := True) entry p (.inr trivial)).of_ok ht).1
  have hv := checkBodies_decides hH (allFresh_enterDeclarations hf)
  cases hva : v.answer with
  | ok u =>
    obtain ⟨hs, hall⟩ := hv.of_ok hva
    refine ⟨⟨fun _ => hall.derivable, fun _ => rfl⟩, fun _ d hd => ?_, fun h => absurd rfl h, hs,
      hall.ext⟩
    obtain ⟨P, hP, hx⟩ := hall.slots d hd
    exact ⟨P, hP, fun x h => hx.derives_iff h⟩
  | error f =>
    obtain ⟨hs, hstop⟩ := hv.of_error hva
    obtain ⟨x, rfl, hx⟩ := hstop.due
    refine ⟨⟨fun h => (nomatch h), fun h => absurd h hx.not_derivable⟩, fun h => (nomatch h),
      fun _ => ⟨⟨x, rfl, hx⟩, hstop.slots⟩, hs, hstop.ext⟩

section
open Build

/-- A program that exchanges the elements of an array through references. -/
def swapping : Program := program [
  procDecl "swap" [refParam "a" intType, refParam "b" intType] [varDecl "t" intType] [
    assign (named "t") (var (named "a")),
    assign (named "a") (var (named "b")),
    assign (named "b") (var (named "t"))],
  procDecl "main" [] [varDecl "v" (arrayType 2 intType)] [
    ifThen (binary (.compare .neq) (var (index (named "v") (int 0)))
        (var (index (named "v") (int 1))))
      (compound [call "swap" [var (index (named "v") (int 0)), var (index (named "v") (int 1))]])]]

/-- The check accepts the exchange, so that its bodies obey the rules. -/
theorem checkBodies_exact_swapping : ∃ t, (enterDeclarations "main" swapping).answer = .ok t ∧
    (∀ d ∈ swapping.procedures, Stmt.allFresh d.body = true) ∧
    ∀ d ∈ (enterDeclarations "main" swapping).tree.procedures, d.Derivable t := by
  have hf : ∀ d ∈ swapping.procedures, Stmt.allFresh d.body = true := by decide +kernel
  have hok : (match (enterDeclarations "main" swapping).answer with
      | .ok t => (checkBodies t (enterDeclarations "main" swapping).tree).answer.toBool
      | .error _ => false) = true := by decide +kernel
  cases ht : (enterDeclarations "main" swapping).answer with
  | error f =>
    rw [ht] at hok
    cases hok
  | ok t =>
    rw [ht] at hok
    refine ⟨t, rfl, hf, (checkBodies_exact ht hf).1.1 ?_⟩
    dsimp only at hok
    cases hv : (checkBodies t (enterDeclarations "main" swapping).tree).answer with
    | ok u => rfl
    | error f =>
      rw [hv] at hok
      cases hok

end

end Spl
