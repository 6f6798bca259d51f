import Spl.Proofs.Code.Renaming
import Spl.Proofs.Compile.Commuting
import Spl.Proofs.SymbolTable.Differing

/-!
# Programs whose tables differ in one scope

Two programs whose declarations have been entered have the same bodies, up to the names of
variables, and tables that differ in one scope. If the difference hides no variable and no procedure
from the bodies, the other phases come to the same: the check, the allocation and the code.

* `ProcDecl.Counterpart`, `Decl.Counterpart`: declarations that stand for one another.
* `ProcDecl.Counterpart.bodiesAligned`: their bodies are checked alike.
* `AllocatedAlike`, `allocate_counterparts`: they are allocated alike.
* `generate_counterparts`: they have the same code.
* `compileEntered`, `Counterparts.checked_alike`: all of this, for programs.
-/

namespace Spl

open SymbolTable

variable {s : ScopeId} {Q : Scope → Scope → Prop} {scopeOf : String → Option ScopeId}
  {t t' u u' : SymbolTable} {ρ : String → String} {d d' : ProcDecl} {P : Procedure}
  {p p' q q' : Program} {leaves : Bool}

/-! ## Declarations -/

/-- The second procedure is the first one up to the types of its variables and to their names: the
new names stand in the second of two tables for the variables of the first one. -/
structure ProcDecl.Counterpart (s : ScopeId) (Q : Scope → Scope → Prop)
    (scopeOf : String → Option ScopeId) (ρ : String → String) (d d' : ProcDecl) : Prop where
  name : d'.name = d.name
  position : d'.position = d.position
  parameters : d'.parameters.map (·.name) = d.parameters.map fun b => ρ b.name
  locals : d'.locals.map (·.name) = d.locals.map fun b => ρ b.name
  body : d'.body = Stmt.renameOf ρ d.body
  sameName : ∀ n ∈ d.names, ∀ id, scopeOf d.name = some id →
    SameName (Counterparts s Q scopeOf) id n (ρ n)

/-- Type declarations stand for any type declarations, procedures for their counterparts. -/
inductive Decl.Counterpart (s : ScopeId) (Q : Scope → Scope → Prop)
    (scopeOf : String → Option ScopeId) : Decl → Decl → Prop
  | type {b b' : Binding TypeExpr} : Counterpart s Q scopeOf (.type b) (.type b')
  | procedure {d d' : ProcDecl} (ρ : String → String) :
      d.Counterpart s Q scopeOf ρ d' → Counterpart s Q scopeOf (.procedure d) (.procedure d')

theorem Decl.Counterpart.procedures {ds ds' : List Decl}
    (h : List.Forall₂ (Decl.Counterpart s Q scopeOf) ds ds') :
    List.Forall₂ (fun d d' => ∃ ρ, d.Counterpart s Q scopeOf ρ d')
      (ds.filterMap Decl.procedure?) (ds'.filterMap Decl.procedure?) := by
  induction h with
  | nil => exact .nil
  | cons hd _ ih =>
    cases hd with
    | type => exact ih
    | procedure ρ hd => exact .cons ⟨ρ, hd⟩ ih

namespace ProcDecl.Counterpart

/-- A variable of the procedure is found under its new name. -/
theorem find?_var {ds : List ProcDecl} (h : d.Counterpart s Q scopeOf ρ d') (hH : t.Holds ds)
    (hP : t.Declares d P) (hR : Counterparts s Q scopeOf t t') {n : String} {v : Variable}
    (hv : t.find? P.localScope n = some (.var v)) :
    t'.find? P.localScope (ρ n) = some (.var v) := by
  have hlocal : t.local? P.localScope n = some v := (hH.find?_var hP hv).1
  have hmem : n ∈ d.names := (hP.only n _ (local?_eq_some_iff.1 hlocal)).1
  have hscope : scopeOf d.name = some P.localScope := by
    rw [← hR.scopeOf_eq, hP.procedure]
    rfl
  refine find?_of_get? (local?_eq_some_iff.1 ?_)
  rw [(h.sameName n hmem _ hscope).local_eq t t' hR, hlocal]

/-- The body of the procedure is checked as that of its counterpart, if the names of called
procedures are not hidden there. -/
theorem bodiesAligned {ds : List ProcDecl} {D : Decl → Decl → Prop}
    (h : d.Counterpart s Q scopeOf ρ d') (hQ : Scope.SparesProcedures Q) (hH : t.Holds ds)
    (hd : d.head ∈ ds) (hR : Counterparts s Q scopeOf t t')
    (hcalls : ∀ c ∈ d.calls, ∀ id, scopeOf d.name = some id →
      (t.scope id).get? c.procedure = none → (t'.scope id).get? c.procedure = none)
    (hD : ∀ body, D (.procedure { d with body })
      (.procedure { d' with body := Stmt.renameOf ρ body })) :
    Decl.BodiesAligned t t' D (.procedure d) (.procedure d') := by
  obtain ⟨P, hP⟩ := hH.declares d.head hd
  have hP : t.Declares d P := declares_head_iff.1 hP
  have hP' : t'.procedure? d'.name = some P := by
    rw [hR.differs.procedure?_eq hQ, h.name, hP.procedure]
  have hscope : scopeOf d.name = some P.localScope := by
    rw [← hR.scopeOf_eq, hP.procedure]
    rfl
  have hc : t.Closed P.localScope := hP.closed hH.hasScope
  refine .procedure h.body hP.procedure hP' hc (hR.differs.closed hc) ⟨fun n v hv => ?_,
    fun n C hn hC => ?_⟩ hD
  · exact ⟨v, h.find?_var hH hP hR hv, rfl⟩
  · obtain ⟨c, hcm, rfl⟩ := hn
    have hnone : (t.scope P.localScope).get? c.procedure = none := by
      cases he : (t.scope P.localScope).get? c.procedure with
      | none => rfl
      | some e =>
        obtain ⟨-, v, rfl, -⟩ := hP.only _ e he
        rw [find?_of_get? he] at hC
        cases hC
    have hglobal : t'.procedure? c.procedure = some C := by
      rw [hR.differs.procedure?_eq hQ]
      exact hP.find?_proc hC
    have henclosing : (t'.scope P.localScope).enclosing = [global] := by
      rw [hR.differs.enclosing_eq]
      exact hP.enclosing
    refine ⟨C, ?_, rfl⟩
    rw [find?_of_enclosing henclosing, hcalls c hcm _ hscope hnone,
      procedure?_eq_some_iff.1 hglobal]
    rfl

/-- The body opens the same scopes. -/
theorem opened_eq (h : d.Counterpart s Q scopeOf ρ d') (hQ : Scope.SparesProcedures Q)
    (hR : Counterparts s Q scopeOf t t') (next : Nat) : d'.opened t' next = d.opened t next := by
  unfold opened
  rw [hR.differs.procedure?_eq hQ, h.name]
  cases t.procedure? d.name with
  | none => rfl
  | some P =>
    dsimp only
    rw [hR.differs.chain_eq, h.body, Stmt.openedOf_rename]

/-- The new names of parameters or of local variables. -/
theorem sameNames {τ : Type} {name : τ → String} {bs bs' : List τ}
    (h : d.Counterpart s Q scopeOf ρ d') (hbs : bs'.map name = bs.map fun b => ρ (name b))
    (hmem : ∀ b ∈ bs, name b ∈ d.names) (hR : Counterparts s Q scopeOf t t')
    (hP : t.procedure? d.name = some P) :
    List.Forall₂ (fun b b' => SameName (Counterparts s Q scopeOf) P.localScope (name b) (name b'))
      bs bs' := by
  have hscope : scopeOf d.name = some P.localScope := by
    rw [← hR.scopeOf_eq, hP]
    rfl
  have hnames : List.Forall₂ (fun b b' => name b ∈ d.names ∧ ρ (name b) = name b') bs bs' :=
    (List.forall₂_and_left _ _).2 ⟨hmem, List.forall₂_map_left_iff.1
      (List.forall₂_map_right_iff.1 (List.forall₂_eq_eq_eq ▸ hbs.symm))⟩
  refine hnames.imp fun b b' hb => ?_
  rw [← hb.2]
  exact h.sameName _ hb.1 _ hscope

/-- The procedure is allocated as its counterpart. -/
theorem paired (h : d.Counterpart s Q scopeOf ρ d') :
    d.Paired (Counterparts s Q scopeOf) d' where
  name := h.name
  calls := by
    rw [calls, calls, h.body, Stmt.callsOf_rename, List.map_map]
    rfl
  parameters _ _ _ hR hP := h.sameNames h.parameters
    (fun _ hb => List.mem_append_left _ (List.mem_map_of_mem hb)) hR hP
  locals _ _ _ hR hP := h.sameNames h.locals
    (fun _ hb => List.mem_append_right _ (List.mem_map_of_mem hb)) hR hP

/-- The procedure has the block of its counterpart. -/
theorem code_eq (h : d.Counterpart s Q scopeOf ρ d') (hQ : Scope.SparesProcedures Q)
    (hal : Allocated leaves u q) (hd : d ∈ q.procedures) (hR : Counterparts s Q scopeOf u u') :
    d'.code u' = d.code u := by
  obtain ⟨P, hP, hp⟩ := hal.placed d hd
  refine ProcDecl.code_rename hal hd hP hp ⟨fun n v hv => ?_, hR.differs.procedure?_eq hQ⟩ h.name
    h.position h.body
  have hv : u.find? P.localScope n = some (.var v) := by
    unfold variableAt at hv
    cases he : u.find? P.localScope n with
    | none => rw [he] at hv; cases hv
    | some e =>
      rw [he] at hv
      cases e with
      | var w => cases hv; rfl
      | type _ => cases hv
      | proc _ => cases hv
  rw [variableAt, h.find?_var hal.accepted.holds hP hR hv]
  rfl

end ProcDecl.Counterpart

/-! ## Programs -/

/-- Both programs are allocated, and `S` relates the tables; or the allocation of both ends in the
same overflow. -/
def AllocatedAlike (S : SymbolTable → SymbolTable → Prop) (leaves : Bool) (q : Program)
    (t : SymbolTable) (q' : Program) (t' : SymbolTable) : Prop :=
  (∃ u u', (allocate leaves q).run t = .ok () u ∧ (allocate leaves q').run t' = .ok () u' ∧
    S u u') ∨
  ∃ op u u', (allocate leaves q).run t = .error (.overflow op) u ∧
    (allocate leaves q').run t' = .error (.overflow op) u'

theorem AllocatedAlike.mono {S S' : SymbolTable → SymbolTable → Prop}
    (h : AllocatedAlike S leaves q t q' t') (hS : ∀ u u', S u u' → S' u u') :
    AllocatedAlike S' leaves q t q' t' :=
  h.imp_left fun ⟨u, u', hu, hu', hR⟩ => ⟨u, u', hu, hu', hS u u' hR⟩

section
variable (hQ : Scope.SparesProcedures Q)
  (hds : List.Forall₂ (Decl.Counterpart s Q scopeOf) q.declarations q'.declarations)
include hQ hds

/-- The bodies of the program open the same scopes. -/
theorem Program.opened_counterparts (hR : Counterparts s Q scopeOf t t') :
    q'.opened t' = q.opened t := by
  unfold opened procedures
  rw [hR.differs.length_eq]
  have hprocs := Decl.Counterpart.procedures hds
  generalize t.scopes.length = next
  generalize q.declarations.filterMap Decl.procedure? = l at hprocs ⊢
  generalize q'.declarations.filterMap Decl.procedure? = l' at hprocs ⊢
  induction hprocs generalizing next with
  | nil => rfl
  | cons hd _ ih =>
    obtain ⟨ρ, hd⟩ := hd
    rw [ProcDecl.openedOf, ProcDecl.openedOf, hd.opened_eq hQ hR, ih]

/-- An accepted program is allocated as its counterpart. -/
theorem allocate_counterparts (hA : Accepted t q) (hR : Counterparts s Q scopeOf t t')
    (leaves : Bool) : AllocatedAlike (Counterparts s Q scopeOf) leaves q t q' t' := by
  have hstep : InStep (Counterparts s Q scopeOf) (allocate leaves q) (allocate leaves q') :=
    allocate_inStep (Counterparts.related hQ) leaves
      ((Decl.Counterpart.procedures hds).imp fun d d' hd => hd.elim fun _ h => h.paired)
  cases hu : (allocate leaves q).run t with
  | ok _ u =>
    obtain ⟨u', hu', hR'⟩ := hstep.ok hR hu
    exact .inl ⟨u, u', hu, hu', hR'⟩
  | error f u =>
    obtain ⟨f', u', hu', halike⟩ := hstep.error hR hu
    obtain ⟨rfl, -⟩ := (allocate_ends (A := True) hA (.inr trivial)).error hu
    obtain rfl := halike.eq
    exact .inr ⟨.addition, u, u', hu, hu'⟩

/-- An allocated program has the code of its counterpart. -/
theorem generate_counterparts (hal : Allocated leaves u q) (hR : Counterparts s Q scopeOf u u') :
    generate u' q' = generate u q := by
  have hprocs := Decl.Counterpart.procedures hds
  have hcode : List.Forall₂ (fun d d' => d'.code u' = d.code u) q.procedures q'.procedures :=
    ((List.forall₂_and_left _ _).2 ⟨fun _ hd => hd, hprocs⟩).imp fun d d' hd => by
      obtain ⟨hd, ρ, h⟩ := hd
      exact h.code_eq hQ hal hd hR
  unfold generate Program.code
  rw [codeOfProcedures_congr hcode]

end

/-- A program is accepted if its declarations are and its bodies are. -/
theorem buildAndCheck_eq_ok_iff {o : Options} {w : SymbolTable} :
    (buildAndCheck o p).answer = .ok w ↔ ∃ q t, enterDeclarations o.entry p = ⟨q, .ok t⟩ ∧
      (checkBodies t q).answer = .ok () ∧ (checkBodies t q).tree.1 = w := by
  rcases h : enterDeclarations o.entry p with ⟨q, x⟩
  cases x with
  | error e =>
    rw [buildAndCheck_of_error (by rw [h])]
    exact ⟨nofun, nofun⟩
  | ok t =>
    rw [buildAndCheck_of_ok (show (enterDeclarations o.entry p).answer = .ok t by rw [h]), h]
    dsimp only
    cases hc : (checkBodies t q).answer with
    | error e =>
      refine ⟨nofun, ?_⟩
      rintro ⟨_, _, ⟨⟩, hok, -⟩
      rw [hc] at hok
      cases hok
    | ok _ =>
      constructor
      · rintro ⟨⟩
        exact ⟨q, t, rfl, hc, rfl⟩
      · rintro ⟨_, _, ⟨⟩, -, hw⟩
        rw [← hw]
        rfl

/-- The tree that the first two phases leave. -/
theorem tree_buildAndCheck {o : Options} (h : enterDeclarations o.entry p = ⟨q, .ok t⟩) :
    (buildAndCheck o p).tree = (checkBodies t q).tree.2 := by
  rw [buildAndCheck_of_ok (show (enterDeclarations o.entry p).answer = .ok t by rw [h]), h]

/-- What the phases come to that follow when the declarations have been entered. -/
def compileEntered (leaves : Bool) (t : SymbolTable) (q : Program) :
    Except CompileFailure (List Line) :=
  checkThenAllocate leaves t q >>= fun s => (generate s.1 s.2).mapError .ofCodegen

/-- Two programs have tables that differ in one scope and bodies that stand for one another. If the
bodies of the first one are correct, so are those of the second one, and the phases that follow come
to the same. -/
theorem Counterparts.checked_alike {D : Decl → Decl → Prop} (hH : t.Holds q.heads)
    (hH' : t'.Holds q'.heads) (hok : (checkBodies t q).answer = .ok ())
    (hQ : Scope.SparesProcedures Q) (hR : Counterparts s Q scopeOf t t')
    (hD : ∀ x y, D x y → Decl.Counterpart s Q scopeOf x y)
    (hbodies : List.Forall₂ (Decl.BodiesAligned t t' D) q.declarations q'.declarations) :
    ∃ ds ds', (checkBodies t' q').answer = .ok () ∧
      (checkBodies t q).tree.2 = { q with declarations := ds } ∧
      (checkBodies t' q').tree.2 = { q' with declarations := ds' } ∧ List.Forall₂ D ds ds' ∧
      (∀ leaves, AllocatedAlike (Counterparts s Q scopeOf) leaves (checkBodies t q).tree.2
        (checkBodies t q).tree.1 (checkBodies t' q').tree.2 (checkBodies t' q').tree.1) ∧
      ∀ leaves, compileEntered leaves t' q' = compileEntered leaves t q := by
  obtain ⟨_, hok', ds, ds', hq, hq', hds⟩ :=
    checkBodies_aligned hH.hasScope hH'.hasScope hbodies () hok
  have hA : Accepted (checkBodies t q).tree.1 (checkBodies t q).tree.2 :=
    (checkBodies_meets (A := True) hH fun _ _ => .inr trivial).of_ok hok
  have hdecls : List.Forall₂ (Decl.Counterpart s Q scopeOf) (checkBodies t q).tree.2.declarations
      (checkBodies t' q').tree.2.declarations := by
    rw [hq, hq']
    exact hds.imp hD
  -- The check adds the same scopes to both tables.
  have hgrown : Counterparts s Q scopeOf (checkBodies t q).tree.1 (checkBodies t' q').tree.1 := by
    have hopened : q'.opened t' = q.opened t :=
      Program.opened_counterparts hQ (hbodies.imp fun x y hxy => hD x y hxy.self) hR
    obtain ⟨added, hscopes, -, hall⟩ := checkBodies_opens hH
    obtain ⟨added', hscopes', -, hall'⟩ := checkBodies_opens hH'
    rw [hall () hok] at hscopes
    rw [hall' () hok', hopened] at hscopes'
    rw [show (checkBodies t q).tree.1 = _ from congrArg SymbolTable.mk hscopes,
      show (checkBodies t' q').tree.1 = _ from congrArg SymbolTable.mk hscopes']
    exact hR.append _
  have hallocated := allocate_counterparts hQ hdecls hA hgrown
  refine ⟨ds, ds', hok', hq, hq', hds, hallocated, fun leaves => ?_⟩
  unfold compileEntered checkThenAllocate
  dsimp only
  rw [hok, hok']
  rcases hallocated leaves with ⟨u, u', hu, hu', hR'⟩ | ⟨op, u, u', hu, hu'⟩
  · have hal : Allocated leaves u (checkBodies t q).tree.2 :=
      (allocate_ends (A := True) hA (.inr trivial)).ok hu
    rw [hu, hu']
    show (generate u' (checkBodies t' q').tree.2).mapError _ =
      (generate u (checkBodies t q).tree.2).mapError _
    rw [generate_counterparts hQ hdecls hal hR']
  · rw [hu, hu']

end Spl
