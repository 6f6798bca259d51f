import Spl.Proofs.Compile.Faults
import Spl.Proofs.Compile.Passes
import Spl.Proofs.Follows
import Spl.Proofs.Typing.Repeats

/-!
# Runs over one tree

The passes may run over one tree again and again, in any order, with any options, and also after a
run that has failed. A program is then left in one of three ways: as it was, with the slots of its
type expressions filled as far as its declarations are correct, or with those of its bodies filled
as well. On each of these trees every pass comes to the outcome that it has on the first one.

* `Decl.OtherBody`, `Decl.withBody`: declarations that differ in the body of a procedure.
* `enterDeclaration_withBody`, `enterDeclarations_otherBodies`: entering declarations does not look
  at bodies.
* `Program.Visited`: the trees that runs leave; `Visited.enter`, `Visited.check`: one run.
* `Program.after`: the tree after a sequence of runs.
* `runs_harmless`: any sequence of runs.
-/

namespace Spl

open Slotted

/-! ## Declarations with other bodies -/

/-- A declaration that differs in the body of its procedure only. -/
inductive Decl.OtherBody : Decl → Decl → Prop
  | type {d : Binding TypeExpr} : OtherBody (.type d) (.type d)
  | procedure {d : ProcDecl} {body : List Stmt} :
      OtherBody (.procedure d) (.procedure { d with body })

theorem Decl.OtherBody.refl : ∀ d : Decl, d.OtherBody d
  | .type _ => .type
  | .procedure d => @Decl.OtherBody.procedure d d.body

theorem enterProcedure_body_eq (t : SymbolTable) (d : ProcDecl) (body : List Stmt) :
    enterProcedure t { d with body } = (enterProcedure t d).mapTree ({ · with body }) := by
  unfold enterProcedure
  dsimp only
  generalize Visit.thread (enterParameter _) _ d.parameters = v
  obtain ⟨⟨t', parameters⟩, x⟩ := v
  cases x with
  | error e => rfl
  | ok signature =>
    rw [Visit.andThen_ok, Visit.andThen_ok]
    dsimp only
    generalize Visit.thread (enterLocal _ _) _ d.locals = v
    obtain ⟨⟨_, locals⟩, x⟩ := v
    cases x <;> rfl

namespace Decl

/-- The body of a declared procedure. -/
def body : Decl → List Stmt
  | .type _ => []
  | .procedure d => d.body

/-- The declaration with another body, if it declares a procedure. -/
def withBody (body : List Stmt) : Decl → Decl
  | .type d => .type d
  | .procedure d => .procedure { d with body }

theorem OtherBody.eq_withBody {d d' : Decl} (h : d.OtherBody d') : d' = d.withBody d'.body := by
  cases h <;> rfl

theorem OtherBody.withBody_eq {d d' : Decl} (h : d.OtherBody d') (body : List Stmt) :
    d'.withBody body = d.withBody body := by
  cases h <;> rfl

theorem withBody_of_body_eq {d : Decl} {body : List Stmt} (h : d.body = body) :
    d.withBody body = d := by
  subst h
  cases d <;> rfl

end Decl

theorem enterDeclaration_withBody (t : SymbolTable) (d : Decl) (body : List Stmt) :
    enterDeclaration t (d.withBody body) =
      (enterDeclaration t d).mapTree fun x => (x.1, x.2.withBody body) := by
  cases d with
  | type d =>
    unfold enterDeclaration
    dsimp only [Decl.withBody]
    rcases enterType t d with ⟨d', x⟩
    cases x <;> rfl
  | procedure d =>
    unfold enterDeclaration
    dsimp only [Decl.withBody]
    rw [enterProcedure_body_eq]
    rcases enterProcedure t d with ⟨d', x⟩
    cases x <;> rfl

/-- Declarations with other bodies are entered alike. -/
theorem thread_enterDeclaration_otherBodies {ds ds' : List Decl}
    (h : List.Forall₂ Decl.OtherBody ds ds') (t : SymbolTable) :
    Visit.thread enterDeclaration t ds' = (Visit.thread enterDeclaration t ds).mapTree
      fun x => (x.1, List.zipWith (fun d d' => d.withBody d'.body) x.2 ds') := by
  refine Visit.thread_zipWith (fun _ _ hd => hd.eq_withBody.symm) (fun t d d' hd => ?_) h t
  have hrun := enterDeclaration_withBody t d d'.body
  rwa [← hd.eq_withBody] at hrun

/-! ## Declarations entered again -/

theorem checkEntry_bare (entry : String) (p : Program) :
    checkEntry entry p.bare = checkEntry entry p := by
  have hname : (fun d : Decl => decide (d.name = entry)) ∘ Decl.bare =
      fun d => decide (d.name = entry) := by
    funext d
    cases d <;> rfl
  unfold checkEntry
  rw [show p.bare.declarations = p.declarations.map Decl.bare from rfl, List.find?_map, hname]
  cases p.declarations.find? _ with
  | none => rfl
  | some d =>
    cases d with
    | type d => rfl
    | procedure d =>
      obtain ⟨_, _, parameters, _, _⟩ := d
      cases parameters <;> rfl

theorem checkEntry_kept {p q : Program} (h : Kept p q) (entry : String) :
    checkEntry entry q = checkEntry entry p := by
  have hbare : q.bare = p.bare := h.bare
  rw [← checkEntry_bare, hbare, checkEntry_bare]

/-- The declarations of a program, entered into the predefined table. -/
def Program.entered (p : Program) : SemanticVisit (SymbolTable × List Decl) (List Unit) :=
  Visit.thread enterDeclaration .predefined p.declarations

theorem enterDeclarations_of_error {p : Program} {s : SymbolTable × List Decl}
    {e : Failure SemanticError} (h : p.entered = ⟨s, .error e⟩) (entry : String) :
    enterDeclarations entry p = ⟨{ p with declarations := s.2 }, .error e⟩ := by
  unfold enterDeclarations
  rw [show Visit.thread enterDeclaration .predefined p.declarations = _ from h]
  rfl

theorem enterDeclarations_of_ok {p : Program} {t : SymbolTable} {ds : List Decl} {as : List Unit}
    (h : p.entered = ⟨(t, ds), .ok as⟩) (entry : String) :
    enterDeclarations entry p = ⟨{ p with declarations := ds },
      (checkEntry entry p).map fun _ => t⟩ := by
  unfold enterDeclarations
  rw [show Visit.thread enterDeclaration .predefined p.declarations = _ from h, Visit.andThen_ok]
  dsimp only
  cases checkEntry entry p <;> rfl

theorem Program.entered_stable (p : Program) :
    p.entered.Stable (fun x => Visit.thread enterDeclaration .predefined x.2)
      (fun x => Kept p.declarations x.2) fun x => ∀ d ∈ x.2, d.HeadFull :=
  .thread enterDeclaration_stable p.declarations .predefined

theorem enterDeclarations_tree (entry : String) (p : Program) :
    (enterDeclarations entry p).tree = { p with declarations := p.entered.tree.2 } := by
  cases h : p.entered with
  | mk s x =>
    cases x with
    | error e => rw [enterDeclarations_of_error h]
    | ok as => rw [enterDeclarations_of_ok h]

theorem enterDeclarations_kept (entry : String) (p : Program) :
    Kept p (enterDeclarations entry p).tree := by
  rw [enterDeclarations_tree]
  exact .program p.entered_stable.kept

theorem Program.entered_again (p : Program) (entry : String) :
    (enterDeclarations entry p).tree.entered = p.entered := by
  rw [enterDeclarations_tree]
  exact p.entered_stable.again

/-- Declarations that have been entered, with whatever entry point, are entered again as before. -/
theorem enterDeclarations_again (entry entry' : String) (p : Program) :
    enterDeclarations entry' (enterDeclarations entry p).tree = enterDeclarations entry' p := by
  have hagain := p.entered_again entry
  have hentry := checkEntry_kept (enterDeclarations_kept entry p) entry'
  have htree := enterDeclarations_tree entry p
  generalize (enterDeclarations entry p).tree = q at hagain hentry htree ⊢
  cases h : p.entered with
  | mk s x =>
    cases x with
    | error e =>
      rw [enterDeclarations_of_error h, enterDeclarations_of_error (hagain.trans h), htree]
    | ok as =>
      rw [enterDeclarations_of_ok h, enterDeclarations_of_ok (hagain.trans h), hentry, htree]

/-- The declarations have the same answer again when bodies have changed, and all else stays as it
is. -/
theorem enterDeclarations_otherBodies {entry entry' : String} {p q : Program} {t : SymbolTable}
    (ht : (enterDeclarations entry p).answer = .ok t) (hkept : Kept p q)
    (hq : List.Forall₂ Decl.OtherBody (enterDeclarations entry p).tree.declarations
      q.declarations) :
    enterDeclarations entry' q = ⟨q, (enterDeclarations entry' p).answer⟩ := by
  have hagain := p.entered_again entry
  rw [enterDeclarations_tree] at hq hagain
  cases h : p.entered with
  | mk s x =>
    rw [h] at hagain hq
    cases x with
    | error e =>
      rw [enterDeclarations_of_error h] at ht
      cases ht
    | ok as =>
      obtain ⟨t₀, ds⟩ := s
      have hentered : q.entered = ⟨(t₀, q.declarations), .ok as⟩ := by
        have hrun := thread_enterDeclaration_otherBodies hq .predefined
        rw [show Visit.thread enterDeclaration .predefined ds = _ from hagain] at hrun
        rw [Program.entered, hrun, Visit.mapTree,
          zipWith_eq_right (hq.imp fun _ _ hd => hd.eq_withBody.symm)]
      rw [enterDeclarations_of_ok hentered, enterDeclarations_of_ok h,
        checkEntry_kept hkept entry']

/-! ## Bodies checked again -/

theorem Decl.checkBody_otherBody (t : SymbolTable) (d : Decl) :
    d.OtherBody (d.checkBody t).tree.2 := by
  cases d with
  | type d => exact .type
  | procedure d =>
    unfold checkBody
    dsimp only
    cases t.procedure? d.name with
    | none => exact .refl (.procedure d)
    | some P => exact .procedure

theorem checkBodies_otherBodies (t : SymbolTable) (p : Program) :
    List.Forall₂ Decl.OtherBody p.declarations (checkBodies t p).tree.2.declarations :=
  Visit.forall₂_thread Decl.OtherBody.refl Decl.checkBody_otherBody p.declarations t

theorem checkBodies_stable (t : SymbolTable) (p : Program) :
    (checkBodies t p).Stable (fun x => checkBodies t x.2) (fun x => Kept p x.2)
      fun x => ∀ d ∈ x.2.declarations, d.BodyFull :=
  .mapTree_map (.thread Decl.checkBody_stable p.declarations t)
    (f := fun x : SymbolTable × List Decl => (x.1, { p with declarations := x.2 }))
    (fun _ => rfl) (fun _ => .program) fun _ h => h

/-! ## Single runs -/

theorem buildAndCheck_kept (o : Options) (p : Program) : Kept p (buildAndCheck o p).tree := by
  have hkept := enterDeclarations_kept o.entry p
  cases h : (enterDeclarations o.entry p).answer with
  | error e =>
    rw [buildAndCheck_of_error h]
    exact hkept
  | ok t =>
    rw [buildAndCheck_of_ok h]
    exact hkept.trans (checkBodies_stable t _).kept

/-- The tables of the declarations with different entry points are the same. -/
theorem enterDeclarations_ok_unique {entry entry' : String} {p : Program} {t t' : SymbolTable}
    (h : (enterDeclarations entry p).answer = .ok t)
    (h' : (enterDeclarations entry' p).answer = .ok t') : t' = t := by
  cases hp : p.entered with
  | mk s x =>
    cases x with
    | error e =>
      rw [enterDeclarations_of_error hp] at h
      cases h
    | ok as =>
      obtain ⟨t₀, ds⟩ := s
      rw [enterDeclarations_of_ok hp] at h h'
      cases hc : checkEntry entry p with
      | error e =>
        rw [hc] at h
        cases h
      | ok _ =>
        cases hc' : checkEntry entry' p with
        | error e =>
          rw [hc'] at h'
          cases h'
        | ok _ =>
          rw [hc] at h
          rw [hc'] at h'
          cases h
          cases h'
          rfl

/-- The trees that runs over a program leave behind. -/
inductive Program.Visited (p : Program) : Program → Prop
  | new : Visited p p
  | entered (entry : String) : Visited p (enterDeclarations entry p).tree
  | checked {o : Options} {t : SymbolTable} : (enterDeclarations o.entry p).answer = .ok t →
      Visited p (buildAndCheck o p).tree

section

variable {o : Options} {p : Program} {t : SymbolTable}

/-- Declarations are entered again after bodies have been checked. -/
theorem enterDeclarations_checked (h : (enterDeclarations o.entry p).answer = .ok t)
    (entry : String) : enterDeclarations entry (buildAndCheck o p).tree =
      ⟨(buildAndCheck o p).tree, (enterDeclarations entry p).answer⟩ := by
  refine enterDeclarations_otherBodies h (buildAndCheck_kept o p) ?_
  rw [buildAndCheck_of_ok h]
  exact checkBodies_otherBodies t _

/-- Bodies are checked again, also with other options. -/
theorem buildAndCheck_checked (h : (enterDeclarations o.entry p).answer = .ok t) (o' : Options) :
    buildAndCheck o' (buildAndCheck o p).tree =
      ⟨(buildAndCheck o p).tree, (buildAndCheck o' p).answer⟩ := by
  have henter := enterDeclarations_checked h o'.entry
  have hanswer : (enterDeclarations o'.entry (buildAndCheck o p).tree).answer =
    (enterDeclarations o'.entry p).answer := by rw [henter]
  cases h' : (enterDeclarations o'.entry p).answer with
  | error e =>
    rw [buildAndCheck_of_error (hanswer.trans h'), buildAndCheck_of_error h', henter]
  | ok t' =>
    cases enterDeclarations_ok_unique h h'
    have hagain := (checkBodies_stable t (enterDeclarations o.entry p).tree).again
    have htree : (enterDeclarations o'.entry p).tree = (enterDeclarations o.entry p).tree := by
      rw [enterDeclarations_tree, enterDeclarations_tree]
    rw [buildAndCheck_of_ok (hanswer.trans h'), buildAndCheck_of_ok h', henter, htree,
      buildAndCheck_of_ok h]
    dsimp only at hagain ⊢
    rw [hagain]

/-- A run over the declarations of a tree that runs have left. -/
theorem Program.Visited.enter {p q : Program} (h : p.Visited q) (entry : String) :
    (enterDeclarations entry q).answer = (enterDeclarations entry p).answer ∧
      p.Visited (enterDeclarations entry q).tree := by
  cases h with
  | new => exact ⟨rfl, .entered entry⟩
  | entered entry' =>
    rw [enterDeclarations_again]
    exact ⟨rfl, .entered entry⟩
  | checked ht =>
    rw [enterDeclarations_checked ht]
    exact ⟨rfl, .checked ht⟩

theorem buildAndCheck_entered (o : Options) (entry : String) (p : Program) :
    buildAndCheck o (enterDeclarations entry p).tree = buildAndCheck o p := by
  unfold buildAndCheck
  rw [enterDeclarations_again]

/-- The first two phases on a new tree leave one that runs leave. -/
theorem Program.Visited.of_check (o : Options) (p : Program) :
    p.Visited (buildAndCheck o p).tree := by
  cases h : (enterDeclarations o.entry p).answer with
  | error e =>
    rw [buildAndCheck_of_error h]
    exact .entered o.entry
  | ok t => exact .checked h

/-- A run of the first two phases over a tree that runs have left. -/
theorem Program.Visited.check {p q : Program} (h : p.Visited q) (o : Options) :
    (buildAndCheck o q).answer = (buildAndCheck o p).answer ∧
      p.Visited (buildAndCheck o q).tree := by
  cases h with
  | new => exact ⟨rfl, .of_check o p⟩
  | entered entry =>
    rw [buildAndCheck_entered]
    exact ⟨rfl, .of_check o p⟩
  | checked ht =>
    rw [buildAndCheck_checked ht]
    exact ⟨rfl, .checked ht⟩

/-- The tree with checked bodies does not depend on the options. -/
theorem buildAndCheck_tree_unique {o' : Options} {t' : SymbolTable}
    (h : (enterDeclarations o.entry p).answer = .ok t)
    (h' : (enterDeclarations o'.entry p).answer = .ok t') :
    (buildAndCheck o' p).tree = (buildAndCheck o p).tree := by
  cases enterDeclarations_ok_unique h h'
  rw [buildAndCheck_of_ok h, buildAndCheck_of_ok h', enterDeclarations_tree,
    enterDeclarations_tree]

/-- The first two phases leave the same tree when they succeed, whatever has run before. -/
theorem Program.Visited.check_tree {q : Program} (h : p.Visited q)
    (ht : (enterDeclarations o.entry p).answer = .ok t) :
    (buildAndCheck o q).tree = (buildAndCheck o p).tree := by
  cases h with
  | new => rfl
  | entered entry => rw [buildAndCheck_entered]
  | checked h =>
    rw [buildAndCheck_checked h]
    exact buildAndCheck_tree_unique ht h

theorem exists_entered_of_check (h : (buildAndCheck o p).answer = .ok t) :
    ∃ t', (enterDeclarations o.entry p).answer = .ok t' := by
  cases he : (enterDeclarations o.entry p).answer with
  | error e =>
    rw [buildAndCheck_of_error he] at h
    cases h
  | ok t' => exact ⟨t', rfl⟩

/-! ## Filled trees -/

theorem Decl.OtherBody.headFull {d d' : Decl} (h : d.OtherBody d') (hd : d.HeadFull) :
    d'.HeadFull := by
  cases h <;> exact hd

theorem Decl.headFull_otherBodies {ds ds' : List Decl} (h : List.Forall₂ Decl.OtherBody ds ds')
    (hds : ∀ d ∈ ds, d.HeadFull) : ∀ d ∈ ds', d.HeadFull := by
  induction h with
  | nil => nofun
  | cons hd _ ih =>
    obtain ⟨hhead, htail⟩ := List.forall_mem_cons.1 hds
    exact List.forall_mem_cons.2 ⟨hd.headFull hhead, ih htail⟩

theorem enterDeclarations_headFull {entry : String}
    (h : (enterDeclarations entry p).answer = .ok t) :
    ∀ d ∈ (enterDeclarations entry p).tree.declarations, d.HeadFull := by
  cases hp : p.entered with
  | mk s x =>
    cases x with
    | error e =>
      rw [enterDeclarations_of_error hp] at h
      cases h
    | ok as =>
      rw [enterDeclarations_tree]
      exact p.entered_stable.full as (by rw [hp])

theorem Decl.full {d : Decl} (hhead : d.HeadFull) (hbody : d.BodyFull) : Full d := by
  cases d with
  | type d => exact hhead
  | procedure d =>
    intro s hs
    have hs' : s ∈ d.parameters.flatMap ParamDecl.slots ++
      (d.locals.flatMap Binding.slots ++ Stmt.slotsOf d.body) := hs
    rw [Stmt.slotsOf_eq, List.mem_append, List.mem_append] at hs'
    rcases hs' with hs' | hs' | hs'
    · obtain ⟨b, hb, hs'⟩ := List.mem_flatMap.1 hs'
      exact hhead.1 b hb s hs'
    · obtain ⟨b, hb, hs'⟩ := List.mem_flatMap.1 hs'
      exact hhead.2 b hb s hs'
    · exact hbody s hs'

/-- The first two phases leave no slot empty when they succeed. -/
theorem buildAndCheck_full (h : (buildAndCheck o p).answer = .ok t) :
    Full (buildAndCheck o p).tree := by
  obtain ⟨t₀, he⟩ := exists_entered_of_check h
  have hheads := enterDeclarations_headFull he
  have hbodies := (checkBodies_stable t₀ (enterDeclarations o.entry p).tree).full
  have hothers := checkBodies_otherBodies t₀ (enterDeclarations o.entry p).tree
  rw [buildAndCheck_of_ok he] at h ⊢
  dsimp only at h hbodies ⊢
  generalize checkBodies t₀ (enterDeclarations o.entry p).tree = v at h hbodies hothers ⊢
  obtain ⟨⟨t₁, q⟩, x⟩ := v
  cases x with
  | error e => cases h
  | ok a =>
    intro s hs
    obtain ⟨d, hd, hs⟩ := List.mem_flatMap.1 (show s ∈ q.declarations.flatMap Decl.slots from hs)
    exact Decl.full (Decl.headFull_otherBodies hothers hheads d hd) (hbodies a rfl d hd) s hs

end

/-! ## Sequences of runs -/

/-- A run over a program: of the first phase, of the first two, or of all four. -/
inductive Rerun where
  | enter (o : Options)
  | check (o : Options)
  | compile (o : Options)

namespace Rerun

/-- The tree that a run leaves. The last two phases get the tree of the first two and change
nothing in it. -/
def tree (p : Program) : Rerun → Program
  | .enter o => (enterDeclarations o.entry p).tree
  | .check o => (buildAndCheck o p).tree
  | .compile o => (Spl.compile o p).tree

end Rerun

namespace Program

/-- The tree after a sequence of runs, each of which finds the tree of the one before it. -/
def after (p : Program) (runs : List Rerun) : Program := runs.foldl Rerun.tree p

variable {p q : Program}

theorem Visited.rerun (h : p.Visited q) : ∀ r : Rerun, p.Visited (r.tree q)
  | .enter o => (h.enter o.entry).2
  | .check o => (h.check o).2
  | .compile o => (h.check o).2

theorem Visited.after (h : p.Visited q) (runs : List Rerun) : p.Visited (q.after runs) := by
  induction runs generalizing q with
  | nil => exact h
  | cons r runs ih => exact ih (h.rerun r)

theorem kept_rerun (q : Program) : ∀ r : Rerun, Kept q (r.tree q)
  | .enter o => enterDeclarations_kept o.entry q
  | .check o => buildAndCheck_kept o q
  | .compile o => buildAndCheck_kept o q

theorem kept_after (q : Program) (runs : List Rerun) : Kept q (q.after runs) := by
  induction runs generalizing q with
  | nil => exact .refl q
  | cons r runs ih => exact (q.kept_rerun r).trans (ih (r.tree q))

/-- Once bodies have been checked, runs leave the tree as it is. -/
theorem after_checked {o : Options} {t : SymbolTable}
    (h : (enterDeclarations o.entry p).answer = .ok t) (runs : List Rerun) :
    (buildAndCheck o p).tree.after runs = (buildAndCheck o p).tree := by
  have hrun (r : Rerun) : r.tree (buildAndCheck o p).tree = (buildAndCheck o p).tree := by
    cases r with
    | enter o' => rw [Rerun.tree, enterDeclarations_checked h]
    | check o' => rw [Rerun.tree, buildAndCheck_checked h]
    | compile o' => rw [Rerun.tree, compile, buildAndCheck_checked h]
  induction runs with
  | nil => rfl
  | cons r runs ih =>
    show (r.tree _).after runs = _
    rw [hrun, ih]

end Program

theorem Program.Visited.compile {p q : Program} (h : p.Visited q) (o : Options) :
    (compile o q).answer = (compile o p).answer := by
  unfold Spl.compile
  dsimp only
  rw [(h.check o).1]
  cases ht : (buildAndCheck o p).answer with
  | error e => rfl
  | ok t =>
    obtain ⟨t', ht'⟩ := exists_entered_of_check ht
    rw [h.check_tree ht']

/-- Runs over one tree are harmless. Let any sequence of runs have gone over a new tree, with any
options, whether they succeeded or not. Then every pass has the answer that it has on the new tree,
and this is no fault in the first two phases; a filled slot never changes; and when the first two
phases have succeeded, all slots are filled and no run changes any. -/
theorem runs_harmless (p : Program) (h : p.isFresh = true) (runs : List Rerun) :
    (∀ o, (enterDeclarations o.entry (p.after runs)).answer =
        (enterDeclarations o.entry p).answer ∧
      (buildAndCheck o (p.after runs)).answer = (buildAndCheck o p).answer ∧
      (compile o (p.after runs)).answer = (compile o p).answer) ∧
    (∀ o f, (enterDeclarations o.entry (p.after runs)).answer ≠ .error (.fault f) ∧
      (buildAndCheck o (p.after runs)).answer ≠ .error (.fault f)) ∧
    (∀ later, Kept (p.after runs) ((p.after runs).after later)) ∧
    ∀ o t, (buildAndCheck o (p.after runs)).answer = .ok t →
      Full (buildAndCheck o (p.after runs)).tree ∧
      ∀ later, (buildAndCheck o (p.after runs)).tree.after later =
        (buildAndCheck o (p.after runs)).tree := by
  have hv : p.Visited (p.after runs) := Program.Visited.new.after runs
  refine ⟨fun o => ⟨(hv.enter o.entry).1, (hv.check o).1, hv.compile o⟩, fun o f => ⟨?_, ?_⟩,
    (p.after runs).kept_after, fun o t ht => ⟨buildAndCheck_full ht, fun later => ?_⟩⟩
  · rw [(hv.enter o.entry).1]
    exact (enterDeclarations_meets o.entry p (.inl h)).not_fault f
  · rw [(hv.check o).1]
    exact (buildAndCheck_meets o p (.inl h)).not_fault f
  · rw [(hv.check o).1] at ht
    obtain ⟨t', ht'⟩ := exists_entered_of_check ht
    rw [hv.check_tree ht']
    exact Program.after_checked ht' later

/-- A run with an entry point that is not there fails and leaves slots behind. The next one
succeeds as on the new tree. -/
theorem runs_harmless_squares : squares.isFresh = true ∧
    (∃ x, (buildAndCheck { entry := "start" } squares).answer = .error (.error x) ∧
      x.cause = .entryMissing "start") ∧
    (squares.after [.check { entry := "start" }]).isFresh = false ∧
    ∃ t, (buildAndCheck {} (squares.after [.check { entry := "start" }])).answer = .ok t ∧
      (buildAndCheck {} squares).answer = .ok t ∧
      Kept (squares.after [.check { entry := "start" }])
        ((squares.after [.check { entry := "start" }]).after [.enter {}]) ∧
      Full (buildAndCheck {} (squares.after [.check { entry := "start" }])).tree ∧
      (buildAndCheck {} (squares.after [.check { entry := "start" }])).tree.after
          [.enter { entry := "fill" }, .compile { leaves := true }] =
        (buildAndCheck {} (squares.after [.check { entry := "start" }])).tree := by
  have hfresh : squares.isFresh = true := by decide +kernel
  obtain ⟨hanswers, -, hkept, hok⟩ :=
    runs_harmless squares hfresh [.check { entry := "start" }]
  have hmissing : (match (buildAndCheck { entry := "start" } squares).answer with
      | .error (.error x) => some x.cause
      | _ => none) = some (.entryMissing "start") := by decide +kernel
  obtain ⟨t, ht⟩ := exists_ok_of_isSome (x := (buildAndCheck {} squares).answer)
    (by decide +kernel)
  have ht' := (hanswers {}).2.1.trans ht
  obtain ⟨hfull, hlater⟩ := hok {} t ht'
  refine ⟨hfresh, ?_, by decide +kernel, t, ht', ht, hkept _, hfull, hlater _⟩
  cases hx : (buildAndCheck { entry := "start" } squares).answer with
  | ok t =>
    rw [hx] at hmissing
    cases hmissing
  | error f =>
    rw [hx] at hmissing
    cases f with
    | error x => exact ⟨x, rfl, Option.some.inj hmissing⟩
    | fault f => cases hmissing

end Spl
