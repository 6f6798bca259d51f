import Spl.Proofs.Typing.Renaming

/-!
# Programs in which variables are renamed

The parameters and local variables of one procedure of an accepted program get other names, which
hide nothing that the procedure mentions. The program is still accepted, and its compilation comes
to the same.

* `ProcDecl.Counterpart.renamed`, `ProcDecl.Counterpart.unchanged`: the procedure and the others.
* `compile_renamed`: programs.
-/

namespace Spl

open SymbolTable

variable {ρ : String → String} {d x : ProcDecl} {t t' : SymbolTable} {s : ScopeId}
  {Q : Scope → Scope → Prop} {scopeOf : String → Option ScopeId}

/-! ## Declarations -/

theorem ProcDecl.names_bare (d : ProcDecl) : d.bare.names = d.names := by
  simp only [names, bare, List.map_map]
  rfl

/-- The procedure stands for the renamed one, which has its local scope. -/
theorem ProcDecl.Counterpart.renamed (hρ : Set.InjOn ρ {n | n ∈ d.names})
    (hs : scopeOf d.name = some s) {names : List String} (hnames : d.names = names) :
    d.Counterpart s (Scope.Renamed ρ names) scopeOf ρ (d.rename ρ) where
  name := rfl
  position := rfl
  parameters := List.map_map
  locals := List.map_map
  body := rfl
  sameName n hn id hid := by
    subst hnames
    obtain rfl := Option.some.inj (hs.symm.trans hid)
    exact Counterparts.sameName (Scope.Renamed.matches_ hρ hn)

/-- A procedure with another local scope stands for itself. -/
theorem ProcDecl.Counterpart.unchanged (hs : scopeOf d.name ≠ some s) :
    d.Counterpart s Q scopeOf id d where
  name := rfl
  position := rfl
  parameters := rfl
  locals := rfl
  body := (Stmt.renameOf_id d.body).symm
  sameName n _ scope hscope :=
    Counterparts.sameName_of_ne (fun h => hs (by rw [hscope, h])) n

@[simp]
theorem Decl.name_rename (name : String) (x : Decl) : (x.rename name ρ).name = x.name := by
  cases x with
  | type b => rfl
  | procedure d =>
    rw [rename]
    by_cases hd : d.name = name
    · rw [if_pos hd]
      rfl
    · rw [if_neg hd]

/-- Where no other procedure has its name, only the procedure itself changes. -/
theorem Decl.map_rename {before after : List Decl}
    (h : (((before ++ .procedure d :: after).filterMap Decl.procedure?).map (·.name)).Nodup) :
    (before ++ .procedure d :: after).map (Decl.rename d.name ρ) =
      before ++ .procedure (d.rename ρ) :: after := by
  have hprocedures : (before ++ .procedure d :: after).filterMap Decl.procedure? =
      before.filterMap Decl.procedure? ++ d :: after.filterMap Decl.procedure? := by
    rw [List.filterMap_append]
    rfl
  rw [hprocedures, List.map_append, List.map_cons, List.nodup_middle, List.nodup_cons,
    ← List.map_append, ← List.filterMap_append] at h
  have hothers : ∀ x ∈ before ++ after, x.rename d.name ρ = x := fun x hx => by
    cases x with
    | type b => rfl
    | procedure e =>
      have he : e.name ≠ d.name := fun hn => h.1
        (hn ▸ List.mem_map_of_mem (List.mem_filterMap.2 ⟨_, hx, rfl⟩))
      rw [rename, if_neg he]
  rw [List.forall_mem_append] at hothers
  rw [List.map_append, List.map_cons, List.map_congr_left hothers.1, List.map_id',
    List.map_congr_left hothers.2, List.map_id', rename, if_pos rfl]

theorem checkEntry_rename {entry : String} {p : Program} (h : checkEntry entry p = .ok ())
    (name : String) : checkEntry entry (p.rename name ρ) = .ok () := by
  obtain ⟨d, hd, hparameters⟩ := checkEntry_eq_ok_iff.1 h
  refine checkEntry_eq_ok_iff.2 ⟨if d.name = name then d.rename ρ else d, ?_, ?_⟩
  · have hname : (fun x : Decl => decide (x.name = entry)) ∘ Decl.rename name ρ =
        fun x => decide (x.name = entry) := by
      funext x
      rw [Function.comp_apply, Decl.name_rename]
    rw [Program.rename, List.find?_map, hname, hd]
    rfl
  · split
    · rw [ProcDecl.rename, hparameters]
      rfl
    · exact hparameters

/-! ## Bodies -/

/-- What is known of the declarations of both programs, whatever becomes of the bodies. -/
abbrev Decl.RenamedCounterpart (d : ProcDecl) (ρ : String → String) (s : ScopeId)
    (scopeOf : String → Option ScopeId) (x y : Decl) : Prop :=
  Decl.Counterpart s (Scope.Renamed ρ d.names) scopeOf x y ∧ y = x.rename d.name ρ

section
variable {ds : List ProcDecl} (hH : t.Holds ds)
  (hR : Counterparts s (Scope.Renamed ρ d.names) scopeOf t t')
include hH hR

/-- The body of the renamed procedure is checked alike. -/
theorem bodiesAligned_renamed (hρ : d.Renames ρ) {d' : ProcDecl} (hd' : d'.head ∈ ds)
    (hs : scopeOf d.name = some s) (hname : d'.name = d.name) (hnames : d'.names = d.names)
    (hbody : d'.body = d.body) :
    Decl.BodiesAligned t t' (Decl.RenamedCounterpart d ρ s scopeOf) (.procedure d')
      (.procedure (d'.rename ρ)) := by
  have hcounterpart : ∀ body, ({ d' with body } : ProcDecl).Counterpart s
      (Scope.Renamed ρ d.names) scopeOf ρ (({ d' with body } : ProcDecl).rename ρ) := fun body =>
    .renamed (d := { d' with body }) (hnames ▸ hρ.injective) (hname ▸ hs) hnames
  refine (hcounterpart d'.body).bodiesAligned Scope.Renamed.sparesProcedures hH hd' hR
    (fun c hc scope hscope hnone => ?_) fun body => ⟨.procedure ρ (hcounterpart body), ?_⟩
  · obtain rfl : scope = s := Option.some.inj (hscope.symm.trans (hname ▸ hs))
    rw [ProcDecl.calls, hbody] at hc
    exact hR.differs.versions.get?_eq_none hnone fun m hm hm' hmc => hρ.calls m hm hm' c hc hmc.symm
  · rw [Decl.rename, if_pos hname]
    rfl

/-- The body of another procedure is checked alike. -/
theorem bodiesAligned_unchanged (hx : x.head ∈ ds) (hs : scopeOf x.name ≠ some s)
    (hname : x.name ≠ d.name) :
    Decl.BodiesAligned t t' (Decl.RenamedCounterpart d ρ s scopeOf) (.procedure x)
      (.procedure x) := by
  have hcounterpart : ∀ body, ({ x with body } : ProcDecl).Counterpart s
      (Scope.Renamed ρ d.names) scopeOf id { x with body } := fun body => .unchanged hs
  refine (hcounterpart x.body).bodiesAligned Scope.Renamed.sparesProcedures hH hx hR
    (fun c _ scope hscope hnone => ?_) fun body => ?_
  · rwa [hR.differs.others scope fun h => hs (by rw [hscope, h])]
  · rw [Stmt.renameOf_id]
    exact ⟨.procedure id (hcounterpart body), by rw [Decl.rename, if_neg hname]⟩

end

/-! ## Programs -/

section
variable {q : Program} (hH : t.Holds q.heads) (hx : x ∈ q.procedures) (hd : d ∈ q.procedures)
include hH hx hd

/-- Procedures are told apart by their names. -/
theorem SymbolTable.Holds.eq_of_name (h : x.name = d.name) : x = d := by
  have hnodup := hH.nodup
  rw [Program.heads, List.map_map] at hnodup
  exact List.inj_on_of_nodup_map hnodup hx hd h

/-- Procedures are told apart by their local scopes. -/
theorem SymbolTable.Holds.name_eq_of_localScope
    (hs : (t.procedure? x.name).map (·.localScope) = some s)
    (hs' : (t.procedure? d.name).map (·.localScope) = some s) : x.name = d.name := by
  obtain ⟨P, hP⟩ := hH.declares x.head (List.mem_map_of_mem hx)
  obtain ⟨P', hP'⟩ := hH.declares d.head (List.mem_map_of_mem hd)
  have hPs : some P.localScope = some s := by rw [← hs, ← x.head_name, hP.procedure]; rfl
  have hPs' : some P'.localScope = some s := by rw [← hs', ← d.head_name, hP'.procedure]; rfl
  exact hH.separate x.head (List.mem_map_of_mem hx) d.head (List.mem_map_of_mem hd) P P' hP hP'
    (Option.some.inj (hPs.trans hPs'.symm))

end

/-- The declarations of the renamed program are accepted, too. -/
theorem Program.enterDeclarations_rename {entry : String} {p q : Program}
    (h : enterDeclarations entry p = ⟨q, .ok t⟩) (hd : d ∈ p.procedures) (hρ : d.Renames ρ) :
    ∃ d' t' s, d' ∈ q.procedures ∧ d'.name = d.name ∧ d'.names = d.names ∧ d'.body = d.body ∧
      enterDeclarations entry (p.rename d.name ρ) = ⟨q.rename d.name ρ, .ok t'⟩ ∧
      EnteredRenamed ρ d s t t' := by
  have hq : (q.procedures.map (·.name)).Nodup := by
    have hnodup := (holds_of_entered h).nodup
    rwa [Program.heads, List.map_map] at hnodup
  have hp : (p.procedures.map (·.name)).Nodup := by
    have hbodies := enterDeclarations_bodies entry p
    rw [h] at hbodies
    have hnames := congrArg (List.map Prod.fst) hbodies
    rw [List.map_map, List.map_map] at hnames
    exact hnames ▸ hq
  obtain ⟨ds, as, hrun, hentry, rfl⟩ := enterDeclarations_eq_ok_iff.1 h
  obtain ⟨x, hx, hxd⟩ := List.mem_filterMap.1 hd
  obtain rfl : x = .procedure d := by
    cases x with
    | type b => cases hxd
    | procedure e => rw [Option.some.inj hxd]
  obtain ⟨before, after, hsplit⟩ := List.append_of_mem hx
  rw [Program.procedures, hsplit] at hp
  rw [hsplit] at hrun
  obtain ⟨before', after', d', t', s, as', rfl, hkept, hbody, hrun', hE⟩ :=
    enterDeclarations_renamed hρ hrun
  have hbare : d'.bare = d.bare := Decl.procedure.inj hkept.bare
  have hname : d'.name = d.name := show d'.bare.name = d.bare.name by rw [hbare]
  refine ⟨d', t', s, ?_, hname, ?_, hbody, enterDeclarations_eq_ok_iff.2
    ⟨before' ++ .procedure (d'.rename ρ) :: after', as', ?_, checkEntry_rename hentry d.name, ?_⟩,
    hE⟩
  · exact List.mem_filterMap.2 ⟨_, List.mem_append_right _ (.head _), rfl⟩
  · rw [← d'.names_bare, hbare, d.names_bare]
  · rw [Program.rename, hsplit, Decl.map_rename hp]
    exact hrun'
  · rw [← hname]
    exact congrArg (Program.mk p.position) (Decl.map_rename hq)

/-- Renaming the parameters and local variables of a procedure changes nothing but names. Let the
new names be distinct, and let none that is new be the name of a type in the declarations of the
procedure or of a procedure called in its body. If the program is accepted, so is the renamed one.
Its tree is the renamed tree with the same types in the slots; with any leaf setting, its procedures
get the same frames and signatures, or the allocation of both programs overflows; and it compiles to
the same lines or fails alike. -/
theorem compile_renamed {o : Options} {p : Program} (h : (buildAndCheck o p).answer = .ok t)
    (hd : d ∈ p.procedures) (hρ : d.Renames ρ) :
    ∃ t', (buildAndCheck o (p.rename d.name ρ)).answer = .ok t' ∧
      (buildAndCheck o (p.rename d.name ρ)).tree = (buildAndCheck o p).tree.rename d.name ρ ∧
      (∀ leaves, AllocatedAlike (fun u u' => ∀ n, u'.procedure? n = u.procedure? n) leaves
        (buildAndCheck o p).tree t (buildAndCheck o (p.rename d.name ρ)).tree t') ∧
      ∀ o' : Options, o'.entry = o.entry →
        (compile o' (p.rename d.name ρ)).answer = (compile o' p).answer := by
  obtain ⟨q, t₀, henter, hok, rfl⟩ := buildAndCheck_eq_ok_iff.1 h
  have hH : t₀.Holds q.heads := holds_of_entered henter
  obtain ⟨d', t', s, hd', hname, hnames, hbody, henter', hE⟩ :=
    Program.enterDeclarations_rename henter hd hρ
  have hs : (t₀.procedure? d.name).map (·.localScope) = some s := hE.localScope
  have hR : Counterparts s (Scope.Renamed ρ d.names)
      (fun n => (t₀.procedure? n).map (·.localScope)) t₀ t' := ⟨hE.toParallel, fun _ => rfl⟩
  have hbodies : ∀ x ∈ q.declarations, Decl.BodiesAligned t₀ t'
      (Decl.RenamedCounterpart d ρ s fun n => (t₀.procedure? n).map (·.localScope)) x
      (x.rename d.name ρ) := fun x hx => by
    cases x with
    | type b => exact .type ⟨.type, rfl⟩
    | procedure x =>
      have hx : x ∈ q.procedures := List.mem_filterMap.2 ⟨_, hx, rfl⟩
      rw [Decl.rename]
      by_cases hxd : x.name = d.name
      · rw [hH.eq_of_name hx hd' (hxd.trans hname.symm), if_pos hname]
        exact bodiesAligned_renamed hH hR hρ (List.mem_map_of_mem hd') hs hname hnames hbody
      · rw [if_neg hxd]
        refine bodiesAligned_unchanged hH hR (List.mem_map_of_mem hx) (fun hxs => hxd ?_) hxd
        exact (hH.name_eq_of_localScope hx hd' hxs (hname ▸ hs)).trans hname
  obtain ⟨ds, ds', hok', htree, htree', hds, hallocated, hcompile⟩ :=
    Counterparts.checked_alike hH (holds_of_entered henter') hok Scope.Renamed.sparesProcedures hR
      (fun _ _ hxy => hxy.1) (List.forall₂_map_right_iff.2 (List.forall₂_same.2 hbodies))
  rw [tree_buildAndCheck henter, tree_buildAndCheck henter']
  refine ⟨_, buildAndCheck_eq_ok_iff.2 ⟨_, t', henter', hok', rfl⟩, ?_, fun leaves => ?_,
    fun o' ho => ?_⟩
  · rw [htree', htree,
      Visit.eq_of_forall₂ (List.forall₂_map_left_iff.2 (hds.imp fun _ _ hxy => hxy.2))]
    rfl
  · exact (hallocated leaves).mono fun u u' hu =>
      hu.differs.procedure?_eq Scope.Renamed.sparesProcedures
  · rw [← ho] at henter henter'
    rw [compile_eq_checkThenAllocate henter, compile_eq_checkThenAllocate henter']
    exact hcompile o'.leaves

/-- Two variables change places, and another one hides a builtin. -/
def otherNames (n : String) : String :=
  if n = "v" then "n" else if n = "n" then "v" else if n = "i" then "printi" else n

theorem compile_renamed_squares : ∃ d ∈ squares.procedures, d.Renames otherNames ∧
    (d.rename otherNames).names = ["n", "v", "printi"] ∧
      ∃ t t', (buildAndCheck {} squares).answer = .ok t ∧
        (buildAndCheck {} (squares.rename d.name otherNames)).answer = .ok t' ∧
        (compile {} squares).answer.toOption.isSome = true ∧
        (compile {} (squares.rename d.name otherNames)).answer = (compile {} squares).answer := by
  obtain ⟨-, hok, hcompiles, -⟩ := squares_compiles
  obtain ⟨t, ht⟩ := exists_ok_of_isSome hok
  obtain ⟨d, hd, hinjective, htypes, hcalls, hnames⟩ : ∃ d ∈ squares.procedures,
      (∀ n ∈ d.names, ∀ m ∈ d.names, otherNames n = otherNames m → n = m) ∧
      (∀ n ∈ d.names, otherNames n ≠ n → otherNames n ∉ d.typeNames) ∧
      (∀ n ∈ d.names, otherNames n ≠ n → ∀ c ∈ d.calls, c.procedure ≠ otherNames n) ∧
      (d.rename otherNames).names = ["n", "v", "printi"] := by decide
  have hρ : d.Renames otherNames := ⟨fun n hn m hm => hinjective n hn m hm, htypes, hcalls⟩
  obtain ⟨t', ht', -, -, hcompile⟩ := compile_renamed ht hd hρ
  exact ⟨d, hd, hρ, hnames, t, t', ht, ht', hcompiles, hcompile {} rfl⟩

end Spl
