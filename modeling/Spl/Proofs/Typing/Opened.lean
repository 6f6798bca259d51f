import Spl.Proofs.SymbolTable.Declared
import Spl.Typing.Bodies

/-!
# Scopes that the check of bodies opens

The check of a body leaves the scopes of the table as they are and appends empty ones. Which ones
is said by the tree alone: a compound statement opens one scope, inside the scope in which it
stands, and its own statements stand in the new scope.

* `Stmt.opened`, `Program.opened`: the scopes of a tree, in the order in which they are opened.
* `Stmt.compounds`, `Stmt.length_opened`: there are as many as there are compound statements.
* `Stmt.check_opens`, `checkBodies_opens`: the check opens these, as far as it comes.
-/

namespace Spl

open SymbolTable

/-! ## The scopes of a tree -/

namespace Stmt

mutual

/-- The scopes that a statement opens. It stands in the first scope of the chain, and the first
scope that it opens gets the number `next`. -/
def opened (chain : List ScopeId) (next : Nat) : Stmt → List Scope
  | .compound _ statements =>
    { enclosing := chain } :: openedOf (⟨next⟩ :: chain) (next + 1) statements
  | .ifElse _ _ thenPart elsePart =>
    thenPart.opened chain next ++
      elsePart.opened chain (next + (thenPart.opened chain next).length)
  | .whileDo _ _ body => body.opened chain next
  | .assign .. | .call _ | .empty _ => []

/-- The scopes that statements open, one after the other. -/
def openedOf (chain : List ScopeId) (next : Nat) : List Stmt → List Scope
  | [] => []
  | s :: ss =>
    s.opened chain next ++ openedOf chain (next + (s.opened chain next).length) ss

end

mutual

/-- The number of compound statements in a statement. -/
def compounds : Stmt → Nat
  | .compound _ statements => compoundsOf statements + 1
  | .ifElse _ _ thenPart elsePart => thenPart.compounds + elsePart.compounds
  | .whileDo _ _ body => body.compounds
  | .assign .. | .call _ | .empty _ => 0

/-- The number of compound statements in statements. -/
def compoundsOf : List Stmt → Nat
  | [] => 0
  | s :: ss => s.compounds + compoundsOf ss

end

theorem compoundsOf_append (ss ss' : List Stmt) :
    compoundsOf (ss ++ ss') = compoundsOf ss + compoundsOf ss' := by
  induction ss with
  | nil => rw [List.nil_append, compoundsOf, Nat.zero_add]
  | cons s ss ih => rw [List.cons_append, compoundsOf, compoundsOf, ih, Nat.add_assoc]

mutual

/-- There is one scope for each compound statement. -/
theorem length_opened : ∀ (s : Stmt) (chain : List ScopeId) (next : Nat),
    (s.opened chain next).length = s.compounds
  | .compound _ ss, _, _ => by
    rw [opened, compounds, List.length_cons, length_openedOf ss]
  | .ifElse _ _ s s', _, _ => by
    rw [opened, compounds, List.length_append, length_opened s, length_opened s']
  | .whileDo _ _ s, _, _ => by rw [opened, compounds, length_opened s]
  | .assign .., _, _ => by rw [opened, compounds, List.length_nil]
  | .call _, _, _ => by rw [opened, compounds, List.length_nil]
  | .empty _, _, _ => by rw [opened, compounds, List.length_nil]

theorem length_openedOf : ∀ (ss : List Stmt) (chain : List ScopeId) (next : Nat),
    (openedOf chain next ss).length = compoundsOf ss
  | [], _, _ => by rw [openedOf, compoundsOf, List.length_nil]
  | s :: ss, _, _ => by
    rw [openedOf, compoundsOf, List.length_append, length_opened s, length_openedOf ss]

end

mutual

/-- Opened scopes are empty. -/
theorem entries_of_mem_opened : ∀ (s : Stmt) {chain : List ScopeId} {next : Nat},
    ∀ c ∈ s.opened chain next, c.entries = []
  | .compound _ ss, _, _, c, hc => by
    rw [opened] at hc
    rcases List.mem_cons.1 hc with rfl | hc
    · rfl
    · exact entries_of_mem_openedOf ss c hc
  | .ifElse _ _ s s', _, _, c, hc => by
    rw [opened] at hc
    exact (List.mem_append.1 hc).elim (entries_of_mem_opened s c) (entries_of_mem_opened s' c)
  | .whileDo _ _ s, _, _, c, hc => by
    rw [opened] at hc
    exact entries_of_mem_opened s c hc
  | .assign .., _, _, _, hc => by rw [opened] at hc; cases hc
  | .call _, _, _, _, hc => by rw [opened] at hc; cases hc
  | .empty _, _, _, _, hc => by rw [opened] at hc; cases hc

theorem entries_of_mem_openedOf : ∀ (ss : List Stmt) {chain : List ScopeId} {next : Nat},
    ∀ c ∈ openedOf chain next ss, c.entries = []
  | [], _, _, _, hc => by rw [openedOf] at hc; cases hc
  | s :: ss, _, _, c, hc => by
    rw [openedOf] at hc
    exact (List.mem_append.1 hc).elim (entries_of_mem_opened s c) (entries_of_mem_openedOf ss c)

end

end Stmt

namespace ProcDecl

/-- The scopes that the body of a procedure opens, inside the procedure's local scope. -/
def opened (t : SymbolTable) (next : Nat) (d : ProcDecl) : List Scope :=
  match t.procedure? d.name with
  | some P => Stmt.openedOf (t.chain P.localScope) next d.body
  | none => []

/-- The scopes that the bodies of procedures open, one after the other. -/
def openedOf (t : SymbolTable) : (next : Nat) → List ProcDecl → List Scope
  | _, [] => []
  | next, d :: ds =>
    d.opened t next ++ openedOf t (next + (d.opened t next).length) ds

theorem entries_of_mem_opened {t : SymbolTable} {next : Nat} {d : ProcDecl} :
    ∀ c ∈ d.opened t next, c.entries = [] := by
  intro c hc
  unfold opened at hc
  cases hP : t.procedure? d.name with
  | none => rw [hP] at hc; cases hc
  | some P =>
    rw [hP] at hc
    exact Stmt.entries_of_mem_openedOf d.body c hc

theorem entries_of_mem_openedOf {t : SymbolTable} : ∀ (ds : List ProcDecl) {next : Nat},
    ∀ c ∈ openedOf t next ds, c.entries = []
  | [], _, _, hc => by cases hc
  | _ :: ds, _, c, hc =>
    (List.mem_append.1 hc).elim (entries_of_mem_opened c) (entries_of_mem_openedOf ds c)

end ProcDecl

namespace Program

/-- The scopes that the bodies of a program open in a table that holds its declarations. -/
def opened (t : SymbolTable) (p : Program) : List Scope :=
  ProcDecl.openedOf t t.scopes.length p.procedures

/-- The number of compound statements in the bodies of a program. -/
def compounds (p : Program) : Nat := Stmt.compoundsOf (p.procedures.flatMap (·.body))

/-- Every compound statement of a program opens one scope. -/
theorem length_opened {t : SymbolTable} {p : Program}
    (h : ∀ d ∈ p.procedures, (t.procedure? d.name).isSome = true) :
    (p.opened t).length = p.compounds := by
  have hds : ∀ (ds : List ProcDecl) (next : Nat),
      (∀ d ∈ ds, (t.procedure? d.name).isSome = true) →
      (ProcDecl.openedOf t next ds).length = Stmt.compoundsOf (ds.flatMap (·.body)) := by
    intro ds
    induction ds with
    | nil => exact fun _ _ => rfl
    | cons d ds ih =>
      intro next h
      obtain ⟨P, hP⟩ := Option.isSome_iff_exists.1 (h d (.head _))
      have hd : (d.opened t next).length = Stmt.compoundsOf d.body := by
        rw [ProcDecl.opened, hP]
        exact Stmt.length_openedOf ..
      rw [ProcDecl.openedOf, List.length_append, hd, ih _ fun d' hd' => h d' (.tail _ hd'),
        List.flatMap_cons, Stmt.compoundsOf_append]
  exact hds p.procedures _ h

end Program

/-! ## The check -/

/-- A table that only got empty scopes extends the one before. -/
theorem SymbolTable.Extends.of_scopes {t t' : SymbolTable} {l : List Scope}
    (he : ∀ c ∈ l, c.entries = []) (h : t'.scopes = t.scopes ++ l) : t.Extends t' := ⟨l, h, he⟩

/-- A visit that starts with the table `t` appends the first of the given scopes to the table, and
all of them if it succeeds. -/
def Opens {τ α : Type} (t : SymbolTable) (scopes : List Scope)
    (v : SemanticVisit (SymbolTable × τ) α) : Prop :=
  ∃ added, v.tree.1.scopes = t.scopes ++ added ∧ added <+: scopes ∧
    ∀ a, v.answer = .ok a → added = scopes

namespace Opens

variable {τ υ α β : Type} {t t' : SymbolTable} {l l' : List Scope}
  {v : SemanticVisit (SymbolTable × τ) α}

/-- A visit that leaves the table as it is. -/
theorem unchanged {v : SemanticVisit (SymbolTable × τ) α} (h : v.tree.1 = t) : Opens t [] v :=
  ⟨[], by rw [h, List.append_nil], List.prefix_refl _, fun _ _ => rfl⟩

/-- A visit that fails before it opens a scope. -/
theorem fail {y : τ} {e : Failure SemanticError} :
    Opens t l (Visit.fail (t, y) e : SemanticVisit (SymbolTable × τ) α) :=
  ⟨[], by rw [List.append_nil]; rfl, List.nil_prefix, nofun⟩

theorem mapTree {f : SymbolTable × τ → SymbolTable × υ} (hf : ∀ x, (f x).1 = x.1)
    (h : Opens t l v) : Opens t l (v.mapTree f) := by
  obtain ⟨added, htree, hadded⟩ := h
  exact ⟨added, by rw [← htree]; exact congrArg _ (hf _), hadded⟩

theorem map {f : α → β} (h : Opens t l v) : Opens t l (v.map f) := by
  obtain ⟨added, htree, hfirst, hall⟩ := h
  refine ⟨added, htree, hfirst, fun b hb => ?_⟩
  cases ha : v.answer with
  | ok a => exact hall a ha
  | error e => rw [Visit.map, ha] at hb; cases hb

/-- A part without statements is visited first. -/
theorem after {v : SemanticVisit τ α} {stop : τ → SymbolTable × υ}
    {next : τ → α → SemanticVisit (SymbolTable × υ) β} (hs : ∀ y, (stop y).1 = t)
    (hn : ∀ y a, Opens t l (next y a)) : Opens t l (v.andThen stop next) := by
  obtain ⟨y, x⟩ := v
  cases x with
  | ok a => exact hn y a
  | error e => exact ⟨[], by rw [List.append_nil, ← hs y]; rfl, List.nil_prefix, nofun⟩

/-- One visit after another. -/
theorem andThen {stop : SymbolTable × τ → SymbolTable × υ}
    {next : SymbolTable × τ → α → SemanticVisit (SymbolTable × υ) β} (h : Opens t l v)
    (hs : ∀ y, (stop y).1 = y.1)
    (hn : ∀ y a, y.1.scopes = t.scopes ++ l → Opens y.1 l' (next y a)) :
    Opens t (l ++ l') (v.andThen stop next) := by
  obtain ⟨y, x⟩ := v
  obtain ⟨added, htree, hfirst, hall⟩ := h
  cases x with
  | ok a =>
    obtain rfl := hall a rfl
    obtain ⟨added', htree', hfirst', hall'⟩ := hn y a htree
    refine ⟨added ++ added', ?_, List.prefix_append_right_inj _ |>.2 hfirst', fun b hb => ?_⟩
    · show (next y a).tree.1.scopes = _
      rw [htree', htree, List.append_assoc]
    · rw [hall' b hb]
  | error e =>
    refine ⟨added, ?_, hfirst.trans (List.prefix_append _ _), nofun⟩
    show (stop y).1.scopes = _
    rw [hs, htree]

/-- A new scope is opened first. -/
theorem newScope {scope : ScopeId} (h : Opens (t.newScope scope).2 l v) :
    Opens t ({ enclosing := t.chain scope } :: l) v := by
  obtain ⟨added, htree, hfirst, hall⟩ := h
  refine ⟨{ enclosing := t.chain scope } :: added, ?_, ?_, fun a ha => by rw [hall a ha]⟩
  · rw [htree, SymbolTable.newScope, List.append_assoc]
    rfl
  · exact List.cons_prefix_cons.2 ⟨rfl, hfirst⟩

/-- Whether or not the visit succeeds, the table it leaves extends the one before. -/
theorem extends_tree (h : Opens t l v) (he : ∀ c ∈ l, c.entries = []) : t.Extends v.tree.1 := by
  obtain ⟨added, htree, hfirst, -⟩ := h
  exact ⟨added, htree, fun c hc => he c (hfirst.subset hc)⟩

end Opens

namespace Stmt

mutual

/-- The check of a statement opens the scopes of its compound statements. -/
theorem check_opens : ∀ (s : Stmt) {t : SymbolTable} {scope : ScopeId}, t.HasScope scope →
    Opens t (s.opened (t.chain scope) t.scopes.length) (s.check scope t)
  | .assign p target value, t, scope, hs => by
    rw [check, opened]
    exact .after (fun _ => rfl) fun _ _ => .after (fun _ => rfl) fun _ _ => .unchanged rfl
  | .ifElse p condition thenPart elsePart, t, scope, hs => by
    rw [check, opened]
    refine .after (fun _ => rfl) fun condition type => ?_
    cases checkCondition p .ifCondition type with
    | error e => exact .fail
    | ok _ =>
      refine .andThen (check_opens thenPart hs) (fun _ => rfl) fun y _ hy => ?_
      have hx : t.Extends y.1 := .of_scopes (entries_of_mem_opened thenPart) hy
      have h := check_opens elsePart (hx.hasScope hs)
      rw [hx.chain_eq hs, hy, List.length_append] at h
      exact .mapTree (fun _ => rfl) h
  | .whileDo p condition body, t, scope, hs => by
    rw [check, opened]
    refine .after (fun _ => rfl) fun condition type => ?_
    cases checkCondition p .whileCondition type with
    | error e => exact .fail
    | ok _ => exact .mapTree (fun _ => rfl) (check_opens body hs)
  | .call c, t, scope, hs => by
    rw [check, opened]
    exact .unchanged rfl
  | .compound p statements, t, scope, hs => by
    rw [check, opened]
    have h := checkList_opens statements (t := (t.newScope scope).2)
      (hasScope_newScope_iff.2 (.inr rfl))
    rw [chain_newScope, SymbolTable.newScope] at h
    rw [List.length_append] at h
    exact .newScope (.mapTree (fun _ => rfl) h)
  | .empty p, t, scope, hs => by
    rw [check, opened]
    exact .unchanged rfl

theorem checkList_opens : ∀ (ss : List Stmt) {t : SymbolTable} {scope : ScopeId},
    t.HasScope scope →
    Opens t (openedOf (t.chain scope) t.scopes.length ss) (checkList scope t ss)
  | [], t, scope, hs => by
    rw [checkList, openedOf]
    exact .unchanged rfl
  | s :: ss, t, scope, hs => by
    rw [checkList, openedOf]
    refine .andThen (check_opens s hs) (fun _ => rfl) fun y _ hy => ?_
    have hx : t.Extends y.1 := .of_scopes (entries_of_mem_opened s) hy
    have h := checkList_opens ss (hx.hasScope hs)
    rw [hx.chain_eq hs, hy, List.length_append] at h
    exact .mapTree (fun _ => rfl) h

end

end Stmt

/-- The check of declarations opens the scopes of their bodies. -/
theorem checkAll_opens {t : SymbolTable} (hg : t.HasScope global) : ∀ (ds : List Decl)
    {t' : SymbolTable}, t.Extends t' →
    (∀ d ∈ ds.filterMap Decl.procedure?, ∃ P, t.Declares d.head P) →
    Opens t' (ProcDecl.openedOf t t'.scopes.length (ds.filterMap Decl.procedure?))
      (Visit.thread Decl.checkBody t' ds)
  | [], t', _, _ => .unchanged rfl
  | .type d :: ds, t', hx, hd => .map (.mapTree (fun _ => rfl) (checkAll_opens hg ds hx hd))
  | .procedure d :: ds, t', hx, hd => by
    obtain ⟨P, hP⟩ := hd d (.head _)
    have hname : t.procedure? d.name = some P := hP.procedure
    have hname' : t'.procedure? d.name = some P := (hP.grow (hx.grows hg)).procedure
    have hopened : ∀ next, d.opened t next = Stmt.openedOf (t.chain P.localScope) next d.body :=
      fun next => by rw [ProcDecl.opened, hname]
    have hbody : Opens t' (d.opened t t'.scopes.length) (Decl.checkBody t' (.procedure d)) := by
      have h := Stmt.checkList_opens d.body (hx.hasScope hP.hasScope)
      rw [hx.chain_eq hP.hasScope] at h
      unfold Decl.checkBody
      simp only [hname']
      rw [hopened]
      exact .mapTree (fun _ => rfl) h
    refine .andThen hbody (fun _ => rfl) fun y _ hy => ?_
    have hx' : t'.Extends y.1 := .of_scopes ProcDecl.entries_of_mem_opened hy
    have h := checkAll_opens hg ds (hx.trans hx') fun d' hd' => hd d' (.tail _ hd')
    rw [hy, List.length_append] at h
    exact .map (.mapTree (fun _ => rfl) h)

/-- The check of a program opens the scopes of its bodies, as far as it comes. -/
theorem checkBodies_opens {t : SymbolTable} {p : Program} (hH : t.Holds p.heads) :
    Opens t (p.opened t) (checkBodies t p) :=
  .map (.mapTree (fun _ => rfl) (checkAll_opens hH.hasScope p.declarations (.refl t)
    fun d hd => hH.declares d.head (List.mem_map_of_mem hd)))

end Spl
