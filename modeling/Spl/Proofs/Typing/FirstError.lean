import Spl.Proofs.Follows
import Spl.Proofs.Tree.Layers
import Spl.Proofs.Typing.Repeats

/-!
# The first error of a body

The check of a body stops at the first statement that is wrong in itself. What it reports depends on
the statements before that one only, and only these have been visited by then.

* `Stmt.checkList_eq_error_iff`: where the check of a list of statements stops.
* `Stmt.Layer.Passed`, `Stmt.PassedAll`: layers that the check has entered, as it leaves them.
* `Stmt.FailsItself`: a statement in which the check stops before any of its sub-statements.
* `Stmt.exists_failsItself`: a check that stops does so in such a statement.
* `Call.Reports`, `Call.reports_of_check`: which of the errors of a call is reported.
-/

namespace Spl

open Slotted

/-! ## Lists of statements -/

theorem Visit.map_eq_error_iff {ε τ α β : Type} {v : Visit ε τ α} {f : α → β} {y : τ} {e : ε} :
    v.map f = ⟨y, .error e⟩ ↔ v = ⟨y, .error e⟩ := by
  obtain ⟨y', x⟩ := v
  cases x <;> simp [Visit.map, Except.map]

theorem Visit.map_unit_eq_ok_iff {ε τ α : Type} {v : Visit ε τ α} {y : τ} :
    v.map (fun _ => ()) = ⟨y, .ok ()⟩ ↔ ∃ a, v = ⟨y, .ok a⟩ := by
  obtain ⟨y', x⟩ := v
  cases x <;> simp [Visit.map, Except.map]

namespace Stmt

variable {scope scope' : ScopeId} {t t' u : SymbolTable} {e : Failure SemanticError}

/-- The statements of a list are checked one after another. -/
theorem checkList_eq_thread : ∀ (ss : List Stmt) (t : SymbolTable),
    checkList scope t ss = (Visit.thread (check scope) t ss).map fun _ => ()
  | [], t => by
    rw [checkList]
    rfl
  | s :: ss, t => by
    rw [checkList, Visit.thread]
    rcases s.check scope t with ⟨⟨t', s'⟩, x⟩
    cases x with
    | error e => rfl
    | ok a =>
      rw [Visit.andThen_ok, Visit.andThen_ok]
      dsimp only
      rw [checkList_eq_thread ss t']
      rcases Visit.thread (check scope) t' ss with ⟨⟨t'', ss'⟩, x⟩
      cases x <;> rfl

/-- The check of a list stops in one of its statements, after it has passed those before. -/
theorem checkList_eq_error_iff {ss ss' : List Stmt} :
    checkList scope t ss = ⟨(u, ss'), .error e⟩ ↔
      ∃ before s after t' before' s', ss = before ++ s :: after ∧
        checkList scope t before = ⟨(t', before'), .ok ()⟩ ∧
        s.check scope t' = ⟨(u, s'), .error e⟩ ∧ ss' = before' ++ s' :: after := by
  rw [checkList_eq_thread, Visit.map_eq_error_iff, Visit.thread_eq_error_iff]
  constructor
  · rintro ⟨before, s, after, t', before', as, s', hss, hbefore, hs, hss'⟩
    refine ⟨before, s, after, t', before', s', hss, ?_, hs, hss'⟩
    rw [checkList_eq_thread, hbefore]
    rfl
  · rintro ⟨before, s, after, t', before', s', hss, hbefore, hs, hss'⟩
    rw [checkList_eq_thread] at hbefore
    obtain ⟨as, has⟩ := Visit.map_unit_eq_ok_iff.1 hbefore
    exact ⟨before, s, after, t', before', as, s', hss, has, hs, hss'⟩

/-! ## Conditions -/

section

variable {p : Position} {condition condition' : Expr}

theorem check_ifElse_of_bool (hc : condition.check t scope = ⟨condition', .ok .bool⟩)
    (s₁ s₂ : Stmt) : (ifElse p condition s₁ s₂).check scope t =
      (s₁.check scope t).andThen (fun x => (x.1, .ifElse p condition' x.2 s₂)) fun x _ =>
        (s₂.check scope x.1).mapTree fun y => (y.1, .ifElse p condition' x.2 y.2) := by
  rw [check, hc]
  rfl

theorem check_whileDo_of_bool (hc : condition.check t scope = ⟨condition', .ok .bool⟩)
    (s : Stmt) : (whileDo p condition s).check scope t =
      (s.check scope t).mapTree fun x => (x.1, .whileDo p condition' x.2) := by
  rw [check, hc]
  rfl

/-- A condition is a `bool`, or the check stops at it, whatever is to come next. -/
theorem condition_cases (p : Position) (cause : Ty → SemanticError) (condition : Expr)
    (scope : ScopeId) (t : SymbolTable) :
    (∃ condition', condition.check t scope = ⟨condition', .ok .bool⟩) ∨
      ∃ condition' e, ∀ (stop : Expr → SymbolTable × Stmt)
        (next : Expr → SemanticVisit (SymbolTable × Stmt) Unit),
        (condition.check t scope).andThen stop (fun condition ty =>
          match checkCondition p cause ty with
          | .error e => .fail (stop condition) e
          | .ok () => next condition) = ⟨stop condition', .error e⟩ := by
  rcases condition.check t scope with ⟨condition', x⟩
  cases x with
  | error e => exact .inr ⟨condition', e, fun _ _ => rfl⟩
  | ok ty =>
    by_cases hty : ty = .bool
    · exact .inl ⟨condition', by rw [hty]⟩
    · refine .inr ⟨condition', .error ⟨p, cause ty⟩, fun stop next => ?_⟩
      rw [Visit.andThen_ok, checkCondition, if_neg hty]
      rfl

theorem check_ifElse_cases (p : Position) (condition : Expr) (scope : ScopeId) (t : SymbolTable) :
    (∃ condition', condition.check t scope = ⟨condition', .ok .bool⟩) ∨
      ∃ condition' e, ∀ s₁ s₂, (ifElse p condition s₁ s₂).check scope t =
        ⟨(t, .ifElse p condition' s₁ s₂), .error e⟩ := by
  refine (condition_cases p .ifCondition condition scope t).imp_right ?_
  rintro ⟨condition', e, hstop⟩
  refine ⟨condition', e, fun s₁ s₂ => ?_⟩
  rw [check]
  exact hstop (fun condition => (t, .ifElse p condition s₁ s₂)) _

theorem check_whileDo_cases (p : Position) (condition : Expr) (scope : ScopeId) (t : SymbolTable) :
    (∃ condition', condition.check t scope = ⟨condition', .ok .bool⟩) ∨
      ∃ condition' e, ∀ s, (whileDo p condition s).check scope t =
        ⟨(t, .whileDo p condition' s), .error e⟩ := by
  refine (condition_cases p .whileCondition condition scope t).imp_right ?_
  rintro ⟨condition', e, hstop⟩
  refine ⟨condition', e, fun s => ?_⟩
  rw [check]
  exact hstop (fun condition => (t, .whileDo p condition s)) _

end

/-! ## Layers that the check has entered -/

/-- At a scope of a table, the check passes what a layer has before its sub-statement. It leaves the
second layer, and goes on with the sub-statement at the second scope of the second table. -/
inductive Layer.Passed (scope : ScopeId) (t : SymbolTable) :
    Layer → Layer → ScopeId → SymbolTable → Prop
  | inThen {p : Position} {condition condition' : Expr} {elsePart : Stmt}
      (hc : condition.check t scope = ⟨condition', .ok .bool⟩) :
      Passed scope t (.inThen p condition elsePart) (.inThen p condition' elsePart) scope t
  | inElse {p : Position} {condition condition' : Expr} {thenPart thenPart' : Stmt}
      {t' : SymbolTable} (hc : condition.check t scope = ⟨condition', .ok .bool⟩)
      (hs : thenPart.check scope t = ⟨(t', thenPart'), .ok ()⟩) :
      Passed scope t (.inElse p condition thenPart) (.inElse p condition' thenPart') scope t'
  | inLoop {p : Position} {condition condition' : Expr}
      (hc : condition.check t scope = ⟨condition', .ok .bool⟩) :
      Passed scope t (.inLoop p condition) (.inLoop p condition') scope t
  | inCompound {p : Position} {before before' after : List Stmt} {t' : SymbolTable}
      (h : checkList (t.newScope scope).1 (t.newScope scope).2 before =
        ⟨(t', before'), .ok ()⟩) :
      Passed scope t (.inCompound p before after) (.inCompound p before' after)
        (t.newScope scope).1 t'

/-- The check passes layers one inside the other. -/
inductive PassedAll : ScopeId → SymbolTable → List Layer → List Layer → ScopeId → SymbolTable → Prop
  | nil {scope : ScopeId} {t : SymbolTable} : PassedAll scope t [] [] scope t
  | cons {scope scope' scope'' : ScopeId} {t t' t'' : SymbolTable} {l l' : Layer}
      {ls ls' : List Layer} (h : l.Passed scope t l' scope' t')
      (hs : PassedAll scope' t' ls ls' scope'' t'') :
      PassedAll scope t (l :: ls) (l' :: ls') scope'' t''

/-- What the check leaves of a layer that it has entered: everything before the sub-statement is
visited, and nothing behind it. -/
structure Layer.Left (l l' : Layer) : Prop where
  bare : l'.bare = l.bare
  earlier : ∀ x ∈ l'.earlierSlots, x.type?.isSome = true
  later : l'.laterSlots = l.laterSlots

section

variable {c c' : Expr} {ty : Ty}

theorem kept_of_check (h : c.check t scope = ⟨c', .ok ty⟩) : Kept c c' ∧ Full c' := by
  have hc := c.check_stable t scope
  rw [h] at hc
  exact ⟨hc.kept, hc.full ty rfl⟩

theorem kept_of_checkList {ss ss' : List Stmt} (h : checkList scope t ss = ⟨(t', ss'), .ok ()⟩) :
    bareOf ss' = bareOf ss ∧ ∀ x ∈ slotsOf ss', x.type?.isSome = true := by
  have hs := checkList_stable ss scope t
  rw [h] at hs
  rw [bareOf_eq, bareOf_eq, slotsOf_eq]
  exact ⟨hs.kept.bare, hs.full () rfl⟩

end

namespace Layer

variable {l l' l₁ : Layer}

theorem Passed.left (h : l.Passed scope t l' scope' t') : l.Left l' := by
  cases h with
  | inThen hc =>
    obtain ⟨hkept, hfull⟩ := kept_of_check hc
    exact ⟨congrArg (Layer.inThen _ · _) hkept.bare, hfull, rfl⟩
  | @inElse p condition condition' thenPart thenPart' _ hc hs =>
    obtain ⟨hkept, hfull⟩ := kept_of_check hc
    have hstable := thenPart.check_stable scope t
    rw [hs] at hstable
    exact ⟨congrArg₂ (Layer.inElse p) hkept.bare hstable.kept.bare,
      List.forall_mem_append.2 ⟨hfull, hstable.full () rfl⟩, rfl⟩
  | inLoop hc =>
    obtain ⟨hkept, hfull⟩ := kept_of_check hc
    exact ⟨congrArg (Layer.inLoop _) hkept.bare, hfull, rfl⟩
  | inCompound h =>
    obtain ⟨hbare, hfull⟩ := kept_of_checkList h
    exact ⟨congrArg (Layer.inCompound _ · _) hbare, hfull, rfl⟩

/-- Whether a layer is passed depends on what comes before its sub-statement. -/
theorem Passed.sameBefore (h : l.Passed scope t l' scope' t') (hl : l.SameBefore l₁) :
    ∃ l₁', l₁.Passed scope t l₁' scope' t' := by
  cases hl with
  | inThen =>
    cases h with
    | inThen hc => exact ⟨_, .inThen hc⟩
  | inElse => exact ⟨l', h⟩
  | inLoop => exact ⟨l', h⟩
  | inCompound =>
    cases h with
    | inCompound hs => exact ⟨_, .inCompound hs⟩

/-- A statement fails if, after what comes before, one of its sub-statements does. What comes behind
is left alone. -/
theorem Passed.check_fill (h : l.Passed scope t l' scope' t') {s s' : Stmt}
    (hs : s.check scope' t' = ⟨(u, s'), .error e⟩) :
    (l.fill s).check scope t = ⟨(u, l'.fill s'), .error e⟩ := by
  cases h with
  | inThen hc =>
    rw [fill, check_ifElse_of_bool hc, hs]
    rfl
  | inElse hc hthen =>
    rw [fill, check_ifElse_of_bool hc, hthen, Visit.andThen_ok, hs]
    rfl
  | inLoop hc =>
    rw [fill, check_whileDo_of_bool hc, hs]
    rfl
  | @inCompound p before before' after t' hbefore =>
    have hlist := checkList_eq_error_iff.2
      ⟨before, s, after, t', before', s', rfl, hbefore, hs, rfl⟩
    rw [fill, check]
    exact congrArg (Visit.mapTree _) hlist

end Layer

variable {ls ls' ls₁ : List Layer}

theorem PassedAll.left (h : PassedAll scope t ls ls' scope' t') :
    ls'.map Layer.bare = ls.map Layer.bare ∧
      (∀ x ∈ ls'.flatMap Layer.earlierSlots, x.type?.isSome = true) ∧
      ls'.flatMap Layer.laterSlots = ls.flatMap Layer.laterSlots := by
  induction h with
  | nil => exact ⟨rfl, nofun, rfl⟩
  | cons h _ ih =>
    obtain ⟨hbare, hearlier, hlater⟩ := h.left
    obtain ⟨ihbare, ihearlier, ihlater⟩ := ih
    exact ⟨congrArg₂ List.cons hbare ihbare, List.forall_mem_append.2 ⟨hearlier, ihearlier⟩,
      congrArg₂ (· ++ ·) hlater ihlater⟩

theorem PassedAll.sameBefore (h : PassedAll scope t ls ls' scope' t')
    (hl : List.Forall₂ Layer.SameBefore ls ls₁) : ∃ ls₁', PassedAll scope t ls₁ ls₁' scope' t' := by
  induction h generalizing ls₁ with
  | nil =>
    cases hl
    exact ⟨[], .nil⟩
  | cons h _ ih =>
    cases hl with
    | cons hl hls =>
      obtain ⟨l₁', hl₁⟩ := h.sameBefore hl
      obtain ⟨ls₁', hls₁⟩ := ih hls
      exact ⟨l₁' :: ls₁', .cons hl₁ hls₁⟩

theorem PassedAll.check_within (h : PassedAll scope t ls ls' scope' t') {s s' : Stmt}
    (hs : s.check scope' t' = ⟨(u, s'), .error e⟩) :
    (within ls s).check scope t = ⟨(u, within ls' s'), .error e⟩ := by
  induction h with
  | nil => exact hs
  | cons h _ ih => exact h.check_fill (ih hs)

/-! ## Where the check stops -/

/-- The check of a statement stops before it enters a sub-statement. -/
structure FailsItself (scope : ScopeId) (t : SymbolTable) (e : Failure SemanticError) (s : Stmt) :
    Prop where
  fails : ∀ s', s.SameHead s' → (s'.check scope t).answer = .error e
  inner : (s.check scope t).tree.2.innerSlots = s.innerSlots

/-- Inside a statement that fails, there is one that fails itself, behind parts that are passed. -/
def FailsInside (scope : ScopeId) (t : SymbolTable) (e : Failure SemanticError) (s : Stmt) : Prop :=
  ∃ ls ls' s₀ scope' t', s = within ls s₀ ∧ PassedAll scope t ls ls' scope' t' ∧
    s₀.FailsItself scope' t' e

theorem FailsItself.inside {s : Stmt} (h : s.FailsItself scope t e) : s.FailsInside scope t e :=
  ⟨[], [], s, scope, t, rfl, .nil, h⟩

theorem FailsInside.fill {s : Stmt} {l l' : Layer} (hl : l.Passed scope t l' scope' t')
    (h : s.FailsInside scope' t' e) : (l.fill s).FailsInside scope t e := by
  obtain ⟨ls, ls', s₀, scope'', t'', rfl, hls, hs₀⟩ := h
  exact ⟨l :: ls, l' :: ls', s₀, scope'', t'', rfl, .cons hl hls, hs₀⟩

theorem failsItself_assign {p : Position} {target : Designator} {value : Expr}
    (h : ((assign p target value).check scope t).answer = .error e) :
    (assign p target value).FailsItself scope t e := by
  refine ⟨fun s' hs' => ?_, ?_⟩
  · cases hs'
    exact h
  · rw [check]
    refine Visit.tree_andThen (P := fun x : SymbolTable × Stmt => x.2.innerSlots = []) rfl ?_
    exact fun _ =>
      Visit.tree_andThen (P := fun x : SymbolTable × Stmt => x.2.innerSlots = []) rfl fun _ => rfl

theorem failsItself_call {c : Call} (h : ((call c).check scope t).answer = .error e) :
    (call c).FailsItself scope t e := by
  refine ⟨fun s' hs' => ?_, ?_⟩
  · cases hs'
    exact h
  · rw [check]
    rfl

theorem failsItself_ifElse {p : Position} {condition condition' : Expr} {s₁ s₂ : Stmt}
    (hstop : ∀ s₁ s₂, (ifElse p condition s₁ s₂).check scope t =
      ⟨(t, .ifElse p condition' s₁ s₂), .error e⟩) :
    (ifElse p condition s₁ s₂).FailsItself scope t e := by
  refine ⟨fun s' hs' => ?_, ?_⟩
  · cases hs'
    rw [hstop]
  · rw [hstop]
    rfl

theorem failsItself_whileDo {p : Position} {condition condition' : Expr} {s : Stmt}
    (hstop : ∀ s, (whileDo p condition s).check scope t =
      ⟨(t, .whileDo p condition' s), .error e⟩) :
    (whileDo p condition s).FailsItself scope t e := by
  refine ⟨fun s' hs' => ?_, ?_⟩
  · cases hs'
    rw [hstop]
  · rw [hstop]
    rfl

mutual

/-- A statement fails in itself or inside. -/
theorem failsInside : ∀ (s : Stmt) {scope : ScopeId} {t : SymbolTable},
    (s.check scope t).answer = .error e → s.FailsInside scope t e
  | .assign _ _ _, _, _, h => (failsItself_assign h).inside
  | .ifElse p condition s₁ s₂, scope, t, h => by
    rcases check_ifElse_cases p condition scope t with ⟨condition', hc⟩ | ⟨condition', f, hstop⟩
    · rcases hs₁ : s₁.check scope t with ⟨⟨t', s₁'⟩, x⟩
      rw [check_ifElse_of_bool hc, hs₁] at h
      cases x with
      | error f =>
        cases h
        exact (failsInside s₁ (by rw [hs₁])).fill (.inThen hc)
      | ok _ => exact (failsInside s₂ h).fill (.inElse hc hs₁)
    · rw [hstop] at h
      cases h
      exact (failsItself_ifElse hstop).inside
  | .whileDo p condition s, scope, t, h => by
    rcases check_whileDo_cases p condition scope t with ⟨condition', hc⟩ | ⟨condition', f, hstop⟩
    · rw [check_whileDo_of_bool hc] at h
      exact (failsInside s h).fill (.inLoop hc)
    · rw [hstop] at h
      cases h
      exact (failsItself_whileDo hstop).inside
  | .call _, _, _, h => (failsItself_call h).inside
  | .compound p ss, scope, t, h => by
    rw [check] at h
    rcases hss : checkList (t.newScope scope).1 (t.newScope scope).2 ss with ⟨⟨u, ss'⟩, x⟩
    have hx : x = .error e := (congrArg Visit.answer hss).symm.trans h
    rw [hx] at hss
    obtain ⟨before, s, after, t', before', s', rfl, hbefore, hs, -⟩ :=
      checkList_eq_error_iff.1 hss
    exact (failsInside_of_mem (before ++ s :: after) s (by simp) (by rw [hs])).fill
      (.inCompound hbefore)
  | .empty p, scope, t, h => by
    rw [check] at h
    cases h

theorem failsInside_of_mem : ∀ (ss : List Stmt), ∀ s ∈ ss, ∀ {scope : ScopeId} {t : SymbolTable},
    (s.check scope t).answer = .error e → s.FailsInside scope t e
  | s :: _, _, .head _, _, _, h => failsInside s h
  | _ :: ss, s, .tail _ hs, _, _, h => failsInside_of_mem ss s hs h

end

end Stmt

/-! ## Which error of a call is reported -/

/-- An argument of the given type fits a parameter. -/
def Variable.Accepts (v : Variable) (e : Expr) (ty : Ty) : Prop :=
  ty = v.type ∧ (v.isReference = true → e.designator?.isSome = true)

/-- The error about the argument of a call that has the given number and does not fit its
parameter. -/
inductive Variable.Refuses (v : Variable) (procedure : String) (number : Nat) (e : Expr) (ty : Ty) :
    Located SemanticError → Prop
  | type (h : ty ≠ v.type) :
      Refuses v procedure number e ty ⟨e.position, .argumentType procedure number v.type ty⟩
  | reference (h : ty = v.type) (hr : v.isReference = true) (he : e.designator?.isSome = false) :
      Refuses v procedure number e ty ⟨e.position, .argumentNotVariable procedure number⟩

/-- All arguments of a call get these types. -/
def Call.Typed (t : SymbolTable) (scope : ScopeId) (c : Call) (tys : List Ty) : Prop :=
  List.Forall₂ (fun e ty => (e.check t scope).answer = .ok ty) c.arguments tys

/-- What a call reports whose procedure has parameters: the error of the first argument that is
wrong in itself; if there is none, a wrong number of arguments; if the number is right, the first
argument that does not fit its parameter. -/
inductive Call.Reports (t : SymbolTable) (scope : ScopeId) (c : Call) :
    Located SemanticError → Prop
  | procedure {x : Located SemanticError} (h : parametersOf t scope c = .error (.error x)) :
      Reports t scope c x
  | argument {vs : List Variable} {before after : List Expr} {e : Expr} {x : Located SemanticError}
      (hvs : parametersOf t scope c = .ok vs) (hc : c.arguments = before ++ e :: after)
      (hbefore : ∀ e ∈ before, ∃ ty, (e.check t scope).answer = .ok ty)
      (he : (e.check t scope).answer = .error (.error x)) :
      Reports t scope c x
  | tooMany {vs : List Variable} {tys : List Ty} (hvs : parametersOf t scope c = .ok vs)
      (htys : c.Typed t scope tys) (h : vs.length < c.arguments.length) :
      Reports t scope c ⟨c.position, .tooManyArguments c.procedure⟩
  | tooFew {vs : List Variable} {tys : List Ty} (hvs : parametersOf t scope c = .ok vs)
      (htys : c.Typed t scope tys) (h : c.arguments.length < vs.length) :
      Reports t scope c ⟨c.position, .tooFewArguments c.procedure⟩
  | mismatch {vs : List Variable} {tys : List Ty} {i : Nat} {e : Expr} {ty : Ty} {v : Variable}
      {x : Located SemanticError} (hvs : parametersOf t scope c = .ok vs)
      (htys : c.Typed t scope tys) (hlength : c.arguments.length = vs.length)
      (he : c.arguments[i]? = some e) (hty : tys[i]? = some ty) (hv : vs[i]? = some v)
      (hx : v.Refuses c.procedure (i + 1) e ty x)
      (hfirst : ∀ j < i, ∀ e ty v, c.arguments[j]? = some e → tys[j]? = some ty →
        vs[j]? = some v → v.Accepts e ty) :
      Reports t scope c x

section

variable {procedure : String} {n : Nat} {e e' : Expr} {ty : Ty} {v : Variable}
  {x : Located SemanticError}

theorem checkArgument_cases (procedure : String) (n : Nat) (e : Expr) (ty : Ty) (v : Variable) :
    (checkArgument procedure n e ty v = .ok () ∧ v.Accepts e ty) ∨
      ∃ x, checkArgument procedure n e ty v = .error (.error x) ∧ v.Refuses procedure n e ty x := by
  unfold checkArgument
  by_cases hty : ty = v.type
  · rw [if_neg (not_not.2 hty)]
    by_cases hr : v.isReference = true ∧ e.designator?.isNone = true
    · rw [if_pos hr]
      exact .inr ⟨_, rfl, .reference hty hr.1 (by simpa using hr.2)⟩
    · rw [if_neg hr]
      exact .inl ⟨rfl, hty, fun href => by simpa [href, Option.isSome_iff_ne_none] using hr⟩
  · rw [if_pos hty]
    exact .inr ⟨_, rfl, .type hty⟩

/-- The check of arguments stops at the first that does not fit. -/
theorem checkArguments_eq_error : ∀ {n : Nat} {es : List Expr} {tys : List Ty} {vs : List Variable}
    {f : Failure SemanticError}, checkArguments procedure n es tys vs = .error f →
    ∃ (i : Nat) (e : Expr) (ty : Ty) (v : Variable) (x : Located SemanticError), f = .error x ∧
      es[i]? = some e ∧ tys[i]? = some ty ∧ vs[i]? = some v ∧ v.Refuses procedure (n + i) e ty x ∧
      ∀ j < i, ∀ (e : Expr) (ty : Ty) (v : Variable), es[j]? = some e → tys[j]? = some ty →
        vs[j]? = some v → v.Accepts e ty
  | n, e :: es, ty :: tys, v :: vs, f, h => by
    rw [checkArguments] at h
    rcases checkArgument_cases procedure n e ty v with ⟨hok, haccepts⟩ | ⟨x, herror, hrefuses⟩
    · rw [hok] at h
      obtain ⟨i, e', ty', v', x, hf, he, hty, hv, hx, hfirst⟩ := checkArguments_eq_error h
      refine ⟨i + 1, e', ty', v', x, hf, he, hty, hv, ?_, fun j hj => ?_⟩
      · rwa [show n + (i + 1) = n + 1 + i by omega]
      · cases j with
        | zero =>
          rintro _ _ _ ⟨⟩ ⟨⟩ ⟨⟩
          exact haccepts
        | succ j => exact hfirst j (by omega)
    · rw [herror] at h
      cases h
      exact ⟨0, e, ty, v, x, rfl, rfl, rfl, rfl, hrefuses, nofun⟩
  | _, [], _, _, _, h => by simp [checkArguments] at h
  | _, _ :: _, [], _, _, h => by simp [checkArguments] at h
  | _, _ :: _, _ :: _, [], _, h => by simp [checkArguments] at h

theorem Expr.position_bare (e : Expr) : e.bare.position = e.position := by cases e <;> rfl

theorem Expr.designator?_isSome_bare (e : Expr) :
    e.bare.designator?.isSome = e.designator?.isSome := by cases e <;> rfl

theorem Expr.exists_of_map_bare {es es' : List Expr}
    (h : es.map Expr.bare = es'.map Expr.bare) {i : Nat} {e : Expr} (he : es[i]? = some e) :
    ∃ e', es'[i]? = some e' ∧ e'.bare = e.bare := by
  have hi := congrArg (·[i]?) h
  simp only [List.getElem?_map, he, Option.map_some] at hi
  exact Option.map_eq_some_iff.1 hi.symm

/-- Whether an argument fits does not depend on its slots. -/
theorem Variable.Refuses.of_bare (h : e'.bare = e.bare) (hx : v.Refuses procedure n e' ty x) :
    v.Refuses procedure n e ty x := by
  have hposition : e'.position = e.position := by
    rw [← e'.position_bare, h, e.position_bare]
  cases hx with
  | type hne =>
    rw [hposition]
    exact .type hne
  | reference hty hr hd =>
    rw [hposition]
    rw [← e'.designator?_isSome_bare, h, e.designator?_isSome_bare] at hd
    exact .reference hty hr hd

theorem Variable.Accepts.of_bare (h : e'.bare = e.bare) (hv : v.Accepts e' ty) :
    v.Accepts e ty := by
  refine ⟨hv.1, fun hr => ?_⟩
  rw [← e.designator?_isSome_bare, ← h, e'.designator?_isSome_bare]
  exact hv.2 hr

end

/-- A call that fails reports the first of its errors, in this order. -/
theorem Call.reports_of_check {t : SymbolTable} {scope : ScopeId} {c : Call}
    {x : Located SemanticError} (h : (c.check t scope).answer = .error (.error x)) :
    c.Reports t scope x := by
  unfold Call.check at h
  cases hvs : parametersOf t scope c with
  | error f =>
    rw [hvs] at h
    cases h
    exact .procedure hvs
  | ok vs =>
    rw [hvs] at h
    dsimp only at h
    have hkept := (Visit.Stable.list fun e (_ : e ∈ c.arguments) => e.check_stable t scope).kept
    rcases Visit.list_cases (·.check t scope) c.arguments with
      ⟨tys, hlist, htys⟩ | ⟨before, e, after, f, hc, hbefore, he, hlist⟩
    · rcases hv : Visit.list (·.check t scope) c.arguments with ⟨es, y⟩
      rw [hv] at h hlist hkept
      cases hlist
      rw [Visit.andThen_ok] at h
      dsimp only at h
      -- What is compared is the arguments as they are left, which differ in slots only.
      have hbare : es.map Expr.bare = c.arguments.map Expr.bare := hkept.bare
      rcases Nat.lt_trichotomy c.arguments.length vs.length with hlt | heq | hgt
      · rw [checkCount, if_neg (Nat.lt_asymm hlt), if_pos hlt] at h
        cases h
        exact .tooFew hvs htys hlt
      · rw [checkCount, heq, if_neg (Nat.lt_irrefl _), if_neg (Nat.lt_irrefl _)] at h
        obtain ⟨i, e', ty, v, y, hy, he', hty, hv, hx, hfirst⟩ := checkArguments_eq_error h
        cases hy
        obtain ⟨e, he, hbe⟩ := Expr.exists_of_map_bare hbare he'
        refine .mismatch hvs htys heq he hty hv ?_ fun j hj a ty v ha hty hv => ?_
        · rw [Nat.add_comm i 1]
          exact hx.of_bare hbe.symm
        · obtain ⟨a', ha', hba⟩ := Expr.exists_of_map_bare hbare.symm ha
          exact (hfirst j hj a' ty v ha' hty hv).of_bare hba
      · rw [checkCount, if_pos hgt] at h
        cases h
        exact .tooMany hvs htys hgt
    · rcases hv : Visit.list (·.check t scope) c.arguments with ⟨es, y⟩
      rw [hv] at h hlist
      cases hlist
      cases h
      exact .argument hvs hc hbefore he

end Spl
