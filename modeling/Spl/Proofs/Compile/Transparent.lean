import Spl.Proofs.Compile.Counterparts
import Spl.Proofs.Typing.Transparent

/-!
# Types are transparent

Only the type that a type expression denotes matters. Where expressions are replaced by others that
denote the same types, or a type is declared under a new name, an accepted program is still
accepted, and its compilation comes to the same.

* `bodiesAligned_retyped`, `checked_retyped`: declarations that differ in type expressions.
* `checkBodies_insertType`, `compileEntered_insertType`: declarations of types are passed over.
* `compilesLike_replace`, `compilesLike_insert`: what one change of the program comes to.
* `compile_sameTypes`: programs.
-/

namespace Spl

open SymbolTable

variable {t t' w : SymbolTable} {q q' : Program} {d d' : ProcDecl} {x x' : Decl}
  {Q : Scope → Scope → Prop} {scopeOf : String → Option ScopeId}

/-! ## Other type expressions -/

section
variable (hM : ∀ n, Scope.Matches Q n n)
include hM

/-- A procedure stands for one that differs in type expressions only. -/
theorem ProcDecl.Retyped.counterpart (h : d.Retyped d') :
    d.Counterpart global Q scopeOf id d' where
  name := h.name
  position := h.position
  parameters := h.parameters
  locals := h.locals
  body := h.body.trans (Stmt.renameOf_id d.body).symm
  sameName n _ scope _ := by
    by_cases hscope : scope = global
    · rw [hscope]
      exact Counterparts.sameName (hM n)
    · exact Counterparts.sameName_of_ne hscope n

theorem Decl.Retyped.counterpart (h : x.Retyped x') : x.Counterpart global Q scopeOf x' := by
  cases h with
  | type _ => exact .type
  | procedure h => exact .procedure id (h.counterpart hM)

/-- Bodies are checked alike if the tables differ in global names that are no procedures. -/
theorem bodiesAligned_retyped {ds : List ProcDecl} (hH : t.Holds ds)
    (hR : Counterparts global Q scopeOf t t') (hQ : Scope.SparesProcedures Q) (h : x.Retyped x')
    (hx : ∀ d, x = .procedure d → d.head ∈ ds) : Decl.BodiesAligned t t' Decl.Retyped x x' := by
  cases h with
  | type h => exact .type (.type h)
  | @procedure d d' h =>
    have hd := hx d rfl
    refine (h.counterpart hM).bodiesAligned hQ hH hd hR (fun c _ scope hscope hnone => ?_)
      fun body => ?_
    · obtain ⟨P, hP⟩ := hH.declares d.head hd
      have hlocal : scopeOf d.name = some P.localScope := by
        rw [← hR.scopeOf_eq, ← d.head_name, hP.procedure]
        rfl
      obtain rfl := Option.some.inj (hlocal.symm.trans hscope)
      rwa [hR.differs.others _ hP.ne_global]
    · rw [Stmt.renameOf_id]
      exact .procedure ⟨h.name, h.position, h.parameters, h.locals, rfl⟩

/-- If bodies are correct, they are so, with the same slots, where declarations differ in type
expressions, and the phases that follow come to the same. -/
theorem checked_retyped (hH : t.Holds q.heads) (hH' : t'.Holds q'.heads)
    (hok : (checkBodies t q).answer = .ok ()) (hR : Counterparts global Q scopeOf t t')
    (hQ : Scope.SparesProcedures Q)
    (hds : List.Forall₂ Decl.Retyped q.declarations q'.declarations) :
    (checkBodies t' q').answer = .ok () ∧
      (checkBodies t' q').tree.2.procedures.map (fun d => (d.name, d.body)) =
        (checkBodies t q).tree.2.procedures.map (fun d => (d.name, d.body)) ∧
      ∀ leaves, compileEntered leaves t' q' = compileEntered leaves t q := by
  have hbodies : List.Forall₂ (Decl.BodiesAligned t t' Decl.Retyped) q.declarations
      q'.declarations := by
    refine ((List.forall₂_and_left _ _).2 ⟨fun _ hx => hx, hds⟩).imp fun x x' hx => ?_
    refine bodiesAligned_retyped hM hH hR hQ hx.2 fun d hd => List.mem_map_of_mem ?_
    exact List.mem_filterMap.2 ⟨x, hx.1, by rw [hd]; rfl⟩
  obtain ⟨es, es', hok', htree, htree', hes, -, hcompile⟩ :=
    Counterparts.checked_alike hH hH' hok hQ hR (fun _ _ hx => hx.counterpart hM) hbodies
  refine ⟨hok', ?_, hcompile⟩
  rw [htree, htree']
  exact Decl.Retyped.map_bodies hes

end

/-! ## Declarations of types -/

theorem checkBodies_eq_ok_iff {r : Program} :
    checkBodies t q = ⟨(w, r), .ok ()⟩ ↔ ∃ ds as,
      Visit.thread Decl.checkBody t q.declarations = ⟨(w, ds), .ok as⟩ ∧
        r = { q with declarations := ds } := by
  unfold checkBodies
  rcases h : Visit.thread Decl.checkBody t q.declarations with ⟨⟨u, ds⟩, y⟩
  cases y with
  | error e =>
    refine ⟨nofun, ?_⟩
    rintro ⟨_, _, ⟨⟩, _⟩
  | ok as =>
    constructor
    · rintro ⟨⟩
      exact ⟨ds, as, rfl, rfl⟩
    · rintro ⟨_, _, ⟨⟩, rfl⟩
      rfl

section
variable {before after : List Decl} (hq : q.declarations = before ++ after)
  (hok : (checkBodies t q).answer = .ok ()) (b : Binding TypeExpr)
include hq hok

/-- The check of bodies passes over a declaration of a type. -/
theorem checkBodies_insertType : ∃ r,
    checkBodies t { q with declarations := before ++ .type b :: after } =
      ⟨((checkBodies t q).tree.1, r), .ok ()⟩ ∧
    r.procedures = (checkBodies t q).tree.2.procedures := by
  rcases hrun : checkBodies t q with ⟨⟨w, r⟩, y⟩
  rw [hrun] at hok
  obtain rfl : y = .ok () := hok
  obtain ⟨ds, as, hthread, rfl⟩ := checkBodies_eq_ok_iff.1 hrun
  rw [hq] at hthread
  obtain ⟨u, before', after', bs, cs, hbefore, hafter, rfl, -⟩ :=
    Visit.thread_append_eq_ok_iff.1 hthread
  have hpass : Decl.checkBody u (.type b) = ⟨(u, .type b), .ok ()⟩ := rfl
  have hrest := Visit.thread_cons_eq_ok_iff.2
    ⟨u, .type b, (), after', cs, hpass, hafter, rfl, rfl⟩
  refine ⟨_, checkBodies_eq_ok_iff.2 ⟨_, _, Visit.thread_append_eq_ok_iff.2
    ⟨u, before', _, bs, _, hbefore, hrest, rfl, rfl⟩, rfl⟩, ?_⟩
  show (before' ++ .type b :: after').filterMap Decl.procedure? =
    (before' ++ after').filterMap Decl.procedure?
  rw [List.filterMap_append, List.filterMap_append]
  rfl

/-- So do the phases that follow. -/
theorem compileEntered_insertType (leaves : Bool) :
    compileEntered leaves t { q with declarations := before ++ .type b :: after } =
      compileEntered leaves t q := by
  obtain ⟨r, hrun, hr⟩ := checkBodies_insertType hq hok b
  have hallocate : allocate leaves r = allocate leaves (checkBodies t q).tree.2 := by
    rw [allocate, allocate, hr]
  have hgenerate : ∀ u, generate u r = generate u (checkBodies t q).tree.2 := fun u => by
    rw [generate, generate, Program.code, Program.code, hr]
  unfold compileEntered checkThenAllocate
  rw [hrun]
  dsimp only
  rw [hok, hallocate]
  cases (allocate leaves (checkBodies t q).tree.2).run (checkBodies t q).tree.1 with
  | error f u => rfl
  | ok _ u => exact congrArg (Except.mapError _) (hgenerate u)

end

/-! ## Programs -/

/-- Once its declarations have been entered, a program is checked and compiled like `q` over `t`. -/
def Program.CompilesLike (entry : String) (p : Program) (t : SymbolTable) (q : Program) : Prop :=
  ∃ q' t', enterDeclarations entry p = ⟨q', .ok t'⟩ ∧ (checkBodies t' q').answer = .ok () ∧
    (checkBodies t' q').tree.2.procedures.map (fun d => (d.name, d.body)) =
      (checkBodies t q).tree.2.procedures.map (fun d => (d.name, d.body)) ∧
    ∀ leaves, compileEntered leaves t' q' = compileEntered leaves t q

section
variable {p : Program} {entry : String} (henter : enterDeclarations entry p = ⟨q, .ok t⟩)
  (hok : (checkBodies t q).answer = .ok ())
include henter hok

theorem compilesLike_replace {ds' : List Decl}
    (halong : Visit.Along enterDeclaration Decl.Interchanged .predefined p.declarations ds') :
    Program.CompilesLike entry { p with declarations := ds' } t q := by
  have hH : t.Holds q.heads := holds_of_entered henter
  obtain ⟨ds, as, hrun, hentry, rfl⟩ := enterDeclarations_eq_ok_iff.1 henter
  have hentered := enterDeclarations_interchanged halong
  rcases hrun' : Visit.thread enterDeclaration .predefined ds' with ⟨⟨t', es⟩, y⟩
  rw [hrun, hrun'] at hentered
  obtain ⟨as', rfl, rfl, hes, -⟩ := hentered as rfl
  have henter' : enterDeclarations entry { p with declarations := ds' } =
      ⟨{ p with declarations := es }, .ok t'⟩ :=
    enterDeclarations_eq_ok_iff.2 ⟨es, as', hrun',
      checkEntry_retyped (halong.forall₂ fun _ _ _ hd => hd.retyped) hentry, rfl⟩
  have hR : Counterparts global (fun c c' => c' = c)
      (fun n => (t'.procedure? n).map (·.localScope)) t' t' :=
    ⟨⟨⟨rfl, hH.hasScope, fun _ _ => rfl, rfl, rfl⟩, hH.hasScope, hH.enclosing⟩, fun _ => rfl⟩
  exact ⟨_, t', henter', checked_retyped (fun n => ⟨fun c c' hc => by rw [hc],
    fun c c' hc f => by rw [hc]⟩) hH (holds_of_entered henter') hok hR
    ⟨fun c c' hc n => by rw [hc], fun c c' hc n f => by rw [hc]⟩ hes⟩

theorem compilesLike_insert {before after : List Decl} {b : Binding TypeExpr} {ty : Ty}
    (hsplit : p.declarations = before ++ after) (hnames : ∀ d ∈ p.declarations, d.name ≠ b.name)
    (hpredefined : predefined.find? global b.name = none)
    (hres : (b.type.resolve (Visit.thread enterDeclaration .predefined before).tree.1
      global).answer = .ok ty) :
    Program.CompilesLike entry { p with declarations := before ++ .type b :: after } t q := by
  have hH : t.Holds q.heads := holds_of_entered henter
  obtain ⟨ds, as, hrun, hentry, rfl⟩ := enterDeclarations_eq_ok_iff.1 henter
  rw [hsplit] at hrun hnames
  obtain ⟨before', after', b', t', as', rfl, hrun', hpar⟩ :=
    enterDeclarations_inserted hrun hnames hpredefined hres
  have henter' : enterDeclarations entry { p with declarations := before ++ .type b :: after } =
      ⟨{ p with declarations := before' ++ .type b' :: after' }, .ok t'⟩ :=
    enterDeclarations_eq_ok_iff.2 ⟨_, as', hrun', checkEntry_inserted hsplit hnames hentry, rfl⟩
  -- the inserted declaration is no procedure
  have hheads : ({ p with declarations := before' ++ .type b' :: after' } : Program).heads =
      ({ p with declarations := before' ++ after' } : Program).heads := by
    simp only [Program.heads, Program.procedures, List.filterMap_append]
    rfl
  have hH' := holds_of_entered henter'
  rw [hheads] at hH'
  have hR : Counterparts global (Scope.Inserted b.name ty)
      (fun n => (t.procedure? n).map (·.localScope)) t t' := ⟨hpar, fun _ => rfl⟩
  obtain ⟨hok', hbodies, hcompile⟩ := checked_retyped Scope.Inserted.matches_self hH hH' hok hR
    Scope.Inserted.sparesProcedures (List.forall₂_same.2 fun x _ => .refl x)
  obtain ⟨r, hrun, hr⟩ := checkBodies_insertType rfl hok' b'
  refine ⟨_, t', henter', by rw [hrun], ?_, fun leaves => ?_⟩
  · rw [hrun, ← hbodies, hr]
  · rw [← hcompile leaves]
    exact compileEntered_insertType rfl hok' b' leaves

end

/-- Only the types that type expressions denote matter. Let type expressions of an accepted program,
at any depth, be replaced by others that denote the same types at their places, or let a type be
declared under a name that the program does not declare and that is not predefined. Then the program
is accepted as before, its bodies are the same with the same types in their slots, and it compiles
to the same lines or fails alike, with any leaf setting. -/
theorem compile_sameTypes {o : Options} {p p' : Program} (h : (buildAndCheck o p).answer = .ok t)
    (hp : p.SameTypes p') :
    (∃ t', (buildAndCheck o p').answer = .ok t') ∧
      (buildAndCheck o p').tree.procedures.map (fun d => (d.name, d.body)) =
        (buildAndCheck o p).tree.procedures.map (fun d => (d.name, d.body)) ∧
      ∀ o' : Options, o'.entry = o.entry → (compile o' p').answer = (compile o' p).answer := by
  obtain ⟨q, t₀, henter, hok, rfl⟩ := buildAndCheck_eq_ok_iff.1 h
  have hlike : p'.CompilesLike o.entry t₀ q := by
    cases hp with
    | replace halong => exact compilesLike_replace henter hok halong
    | insert hsplit hnames hpredefined hres =>
      exact compilesLike_insert henter hok hsplit hnames hpredefined hres
  obtain ⟨q', t', henter', hok', hbodies, hcompile⟩ := hlike
  refine ⟨⟨_, buildAndCheck_eq_ok_iff.2 ⟨q', t', henter', hok', rfl⟩⟩, ?_, fun o' ho => ?_⟩
  · rw [tree_buildAndCheck henter, tree_buildAndCheck henter']
    exact hbodies
  · rw [← ho] at henter henter'
    rw [compile_eq_checkThenAllocate henter, compile_eq_checkThenAllocate henter']
    exact hcompile o'.leaves

section
open Build

/-- `squares`, where the procedure with the array writes out its type. -/
def inlined : Program := program (squares.declarations.dropLast ++ [
  procDecl "main" [] [varDecl "v" (arrayType 8 intType)] [
    call "fill" [var (named "v"), int 8],
    call "printi" [var (index (named "v") (int 7))]]])

/-- `squares`, where a type of two such arrays is declared between the procedures. -/
def extended : Program := program (squares.declarations.dropLast ++
  typeDecl "pair" (recordType [varDecl "l" (namedType "vector"), varDecl "r" (namedType "vector")])
    :: squares.declarations.drop 2)

theorem compile_sameTypes_squares : squares.SameTypes inlined ∧ squares.SameTypes extended ∧
    (compile {} squares).answer.toOption.isSome = true ∧
    (compile {} inlined).answer = (compile {} squares).answer ∧
    (compile {} extended).answer = (compile {} squares).answer := by
  obtain ⟨-, hok, hcompiles, -⟩ := squares_compiles
  obtain ⟨t, ht⟩ := exists_ok_of_isSome hok
  have hvector : Visit.Along enterDeclaration Decl.Interchanged .predefined squares.declarations
      inlined.declarations := by
    refine ⟨.refl _ _, .refl _ _, @Decl.Interchanged.procedure _ _ []
      [varDecl "v" (arrayType 8 intType)] ⟨trivial, ⟨_, ?_, rfl⟩, trivial⟩, trivial⟩
    exact @TypeExpr.Interchanged.replace _ _ _ _ (.array 8 .int) (by decide +kernel)
      (by decide +kernel)
  have hinlined : squares.SameTypes inlined := .replace hvector
  have hpair : ((recordType [varDecl "l" (namedType "vector"),
      varDecl "r" (namedType "vector")]).resolve (Visit.thread enterDeclaration .predefined
        squares.declarations.dropLast).tree.1 global).answer =
      .ok (.record [("l", .array 8 .int), ("r", .array 8 .int)]) := by decide +kernel
  have hextended : squares.SameTypes extended :=
    @Program.SameTypes.insert squares squares.declarations.dropLast (squares.declarations.drop 2)
      ⟨{}, "pair", _⟩ _ rfl (by decide +kernel) (by decide +kernel) hpair
  exact ⟨hinlined, hextended, hcompiles, (compile_sameTypes ht hinlined).2.2 {} rfl,
    (compile_sameTypes ht hextended).2.2 {} rfl⟩

end

end Spl
