import Spl.Proofs.Compile.Leaves
import Spl.Proofs.Frame.Lockstep
import Spl.Proofs.Frame.Repeats
import Spl.Proofs.Typing.Aligned
import Spl.Proofs.Typing.Repeats

/-!
# Checking and allocating in either order

The check of bodies adds scopes to the table and fills slots. The allocation reads neither, and what
it writes the check does not read. So an accepted program may be allocated before it is checked:
the table, the tree and the code are the same.

* `SymbolTable.GrownBy`: a table with more scopes; `allocate_grownBy`: it is allocated in step.
* `checkBodies_allocated`: the check comes to the same after an allocation.
* `checkThenAllocate`, `allocateThenCheck`: the two phases in either order.
* `checkBodies_allocate_apart`: what each of them touches, and that they commute.
-/

namespace Spl

open SymbolTable

variable {t t' u : SymbolTable} {p q : Program} {leaves : Bool}

/-! ## Allocating with more scopes -/

/-- The second table has the scopes of the first one and after them the given ones. -/
structure SymbolTable.GrownBy (added : List Scope) (t t' : SymbolTable) : Prop where
  hasScope : t.HasScope global
  enclosing : (t.scope global).enclosing = []
  scopes : t'.scopes = t.scopes ++ added

namespace SymbolTable.GrownBy

variable {added : List Scope}

/-- Where the scopes that were added are empty, a scope has the same entries in both tables. -/
theorem entries_eq (h : GrownBy added t t') (he : ∀ c ∈ added, c.entries = []) (id : ScopeId) :
    (t'.scope id).entries = (t.scope id).entries := by
  by_cases hs : t.HasScope id
  · rw [(Extends.of_scopes he h.scopes).scope_eq hs]
  · have hle : t.scopes.length ≤ id.index := Nat.le_of_not_lt hs
    have hnone : (t.scope id).entries = [] := by
      rw [scope, List.getElem?_eq_none hle]
      rfl
    rw [hnone, scope, h.scopes, List.getElem?_append_right hle]
    cases hc : added[id.index - t.scopes.length]? with
    | none => rfl
    | some c => exact he c (List.mem_of_getElem? hc)

/-- What is changed in place is changed in both tables. -/
theorem modifyScope (h : GrownBy added t t') (he : ∀ c ∈ added, c.entries = []) (id : ScopeId)
    (name : String) (f : Entry → Entry) :
    GrownBy added (t.modifyScope id (·.update name f)) (t'.modifyScope id (·.update name f)) := by
  have hfixed : ∀ (l : List Scope) (i : Nat), (l ++ added).modify i (·.update name f) =
      l.modify i (·.update name f) ++ added := by
    intro l i
    induction l generalizing i with
    | nil =>
      refine List.ext_getElem (by simp) fun j hj hj' => ?_
      have hempty : ∀ c ∈ added, c.update name f = c := fun c hc => by
        rw [Scope.update, he c hc, List.map_nil, ← he c hc]
      simp only [List.nil_append, List.modify_nil, List.getElem_modify]
      split
      · exact hempty _ (List.getElem_mem _)
      · rfl
    | cons c l ih =>
      cases i with
      | zero => rfl
      | succ i => exact congrArg (c :: ·) (ih i)
  refine ⟨hasScope_modifyScope_iff.2 h.hasScope, ?_, ?_⟩
  · by_cases hid : global = id
    · subst hid
      rw [scope_modifyScope h.hasScope, if_pos rfl]
      exact h.enclosing
    · rw [scope_modifyScope_of_ne hid]
      exact h.enclosing
  · rw [SymbolTable.modifyScope, SymbolTable.modifyScope, h.scopes, hfixed]

theorem related (he : ∀ c ∈ added, c.entries = []) : Related (GrownBy added) where
  procedure_eq t t' h n := by
    rw [procedure?, procedure?, Scope.get?, Scope.get?, h.entries_eq he]
  updateProcedure t t' h n f _ := by
    have hglobal : t'.declaring? global n = t.declaring? global n := by
      have hs := (Extends.of_scopes he h.scopes).scope_eq h.hasScope
      rw [declaring?, declaring?, chain, chain, hs, h.enclosing, List.find?_cons, List.find?_cons,
        hs]
      rfl
    rw [updateProcedure, updateProcedure, update, update, hglobal]
    cases t.declaring? global n with
    | none => exact h
    | some id => exact h.modifyScope he id n _

theorem sameName (he : ∀ c ∈ added, c.entries = []) (id : ScopeId) (n : String) :
    SameName (GrownBy added) id n n where
  local_eq t t' h := by rw [local?, local?, Scope.get?, Scope.get?, h.entries_eq he]
  updateLocal t t' h _ := h.modifyScope he id n _

end SymbolTable.GrownBy

/-- The check of bodies keeps the heads of procedures and the procedures that they call. -/
theorem checkBodies_callees (t : SymbolTable) (q : Program) :
    (checkBodies t q).tree.2.procedures.map (fun d => (d.head, d.calls.map (·.procedure))) =
      q.procedures.map fun d => (d.head, d.calls.map (·.procedure)) := by
  refine Visit.map_procedures_thread (fun t d => ?_) t q.declarations
  cases d with
  | type d => rfl
  | procedure d =>
    unfold Decl.checkBody
    dsimp only
    cases t.procedure? d.name with
    | none => rfl
    | some P =>
      have hkept : Slotted.Kept d.body (Stmt.checkList P.localScope t d.body).tree.2 :=
        (Stmt.checkList_stable d.body P.localScope t).kept
      have hcalls := congrArg Stmt.callsOf hkept.statements.1
      rw [Stmt.callsOf_bare, Stmt.callsOf_bare] at hcalls
      have hprocedures := congrArg (List.map fun c : Call => c.procedure) hcalls
      rw [List.map_map, List.map_map] at hprocedures
      exact congrArg (fun cs : List String => some (d.head, cs)) hprocedures

/-- A checked program is allocated in step with the program before the check. -/
theorem allocate_grownBy {added : List Scope} (he : ∀ c ∈ added, c.entries = []) (t : SymbolTable)
    (q : Program) (leaves : Bool) :
    InStep (GrownBy added) (allocate leaves q) (allocate leaves (checkBodies t q).tree.2) := by
  refine allocate_inStep (GrownBy.related he) leaves ?_
  have hcallees := List.forall₂_map_left_iff.1 (List.forall₂_map_right_iff.1
    (List.forall₂_eq_eq_eq ▸ (checkBodies_callees t q).symm))
  refine hcallees.imp fun d d' hd => ?_
  obtain ⟨hhead, hcalls⟩ := Prod.mk.inj hd
  have hname : d'.name = d.name := by rw [← d'.head_name, ← hhead, d.head_name]
  have hparameters : d'.parameters = d.parameters := by
    rw [← d'.head_parameters, ← hhead, d.head_parameters]
  have hlocals : d'.locals = d.locals := by rw [← d'.head_locals, ← hhead, d.head_locals]
  refine ⟨hname, hcalls.symm, fun _ _ P _ _ => ?_, fun _ _ P _ _ => ?_⟩
  · rw [hparameters]
    exact List.forall₂_same.2 fun b _ => GrownBy.sameName he _ _
  · rw [hlocals]
    exact List.forall₂_same.2 fun b _ => GrownBy.sameName he _ _

/-! ## Checking after an allocation -/

section
variable {S : ScopeId → String → Prop}

/-- Where places have been written, names stand for the same. -/
theorem SymbolTable.WritesPlaces.alignedNames (h : t.WritesPlaces S u) (called : String → Prop)
    (scope : ScopeId) : AlignedNames id called t scope u scope := by
  have hfind : ∀ n e, t.find? scope n = some e →
      ∃ e', u.find? scope n = some e' ∧ e'.outline = e.outline := fun n e he => by
    have ho := h.find?_outline scope n
    rwa [he, Option.map_some, Option.map_eq_some_iff] at ho
  refine ⟨fun n v hv => ?_, fun n P _ hP => ?_⟩
  · obtain ⟨e, he, ho⟩ := hfind n _ hv
    cases e with
    | var v' => exact ⟨v', he, Variable.outline_eq_iff.1 (Entry.var.inj ho)⟩
    | type _ => cases ho
    | proc _ => cases ho
  · obtain ⟨e, he, ho⟩ := hfind n _ hP
    cases e with
    | proc P' => exact ⟨P', he, Procedure.views_eq_of_outline (Entry.proc.inj ho)⟩
    | type _ => cases ho
    | var _ => cases ho

theorem ProcDecl.opened_writesPlaces (h : t.WritesPlaces S u) (next : Nat) (d : ProcDecl) :
    d.opened u next = d.opened t next := by
  have ho := h.procedure?_outline d.name
  unfold opened
  cases hP : t.procedure? d.name with
  | none =>
    rw [hP, Option.map_none, Option.map_eq_none_iff] at ho
    rw [ho]
  | some P =>
    rw [hP, Option.map_some, Option.map_eq_some_iff] at ho
    obtain ⟨P', hP', ho⟩ := ho
    rw [hP']
    dsimp only
    rw [Procedure.localScope_eq_of_outline ho, chain, chain, h.enclosing]

/-- The scopes that the bodies open are the same, too. -/
theorem Program.opened_writesPlaces (h : t.WritesPlaces S u) (q : Program) :
    q.opened u = q.opened t := by
  have hds : ∀ (ds : List ProcDecl) (next : Nat),
      ProcDecl.openedOf u next ds = ProcDecl.openedOf t next ds := by
    intro ds
    induction ds with
    | nil => exact fun _ => rfl
    | cons d ds ih =>
      intro next
      rw [ProcDecl.openedOf, ProcDecl.openedOf, ProcDecl.opened_writesPlaces h, ih]
  rw [opened, opened, h.length_eq, hds]

/-- What the check accepts it accepts after places have been written, with the same slots. -/
theorem checkBodies_writesPlaces (hH : t.Holds q.heads) (hH' : u.Holds q.heads)
    (hw : t.WritesPlaces S u) : (checkBodies t q).Follows
      (fun y _ y' _ => y'.2 = y.2 ∧ y'.1.scopes = u.scopes ++ q.opened t) (checkBodies u q) := by
  have hbodies : List.Forall₂ (Decl.BodiesAligned t u Eq) q.declarations q.declarations := by
    refine List.forall₂_same.2 fun d hd => ?_
    cases d with
    | type d => exact .type rfl
    | procedure d =>
      obtain ⟨P, hP⟩ := hH.declares d.head (List.mem_map_of_mem (List.mem_filterMap.2 ⟨_, hd, rfl⟩))
      obtain ⟨P', hP', ho⟩ := hw.declares hP
      refine .procedure (Stmt.renameOf_id d.body).symm hP.procedure hP'.procedure
        (hP.closed hH.hasScope) (hP'.closed hH'.hasScope) ?_ fun body => ?_
      · rw [Procedure.localScope_eq_of_outline ho]
        exact hw.alignedNames _ _
      · rw [Stmt.renameOf_id]
  have hfollows := checkBodies_aligned hH.hasScope hH'.hasScope hbodies
  intro _ hok
  obtain ⟨_, hok', ds, ds', hq, hq', hds⟩ := hfollows () hok
  refine ⟨(), hok', ?_, ?_⟩
  · rw [List.forall₂_eq_eq_eq] at hds
    rw [hq, hq', hds]
  · obtain ⟨added, hscopes, -, hall⟩ := checkBodies_opens hH'
    rw [hscopes, hall () hok', Program.opened_writesPlaces hw]

end

/-! ## Two orders -/

/-- The second phase and then the third one: the table and the tree that they leave. -/
def checkThenAllocate (leaves : Bool) (t : SymbolTable) (q : Program) :
    Except CompileFailure (SymbolTable × Program) :=
  let v := checkBodies t q
  match v.answer with
  | .error e => .error (.ofSemantic e)
  | .ok () =>
    match (allocate leaves v.tree.2).run v.tree.1 with
    | .error f _ => .error (.fault f)
    | .ok () u => .ok (u, v.tree.2)

/-- The third phase and then the second one: the table and the tree that they leave. -/
def allocateThenCheck (leaves : Bool) (t : SymbolTable) (q : Program) :
    Except CompileFailure (SymbolTable × Program) :=
  match (allocate leaves q).run t with
  | .error f _ => .error (.fault f)
  | .ok () u =>
    let v := checkBodies u q
    match v.answer with
    | .error e => .error (.ofSemantic e)
    | .ok () => .ok v.tree

/-- A compilation checks, allocates and generates. -/
theorem compile_eq_checkThenAllocate {o : Options} (h : enterDeclarations o.entry p = ⟨q, .ok t⟩) :
    (compile o p).answer = checkThenAllocate o.leaves t q >>= fun s =>
      (generate s.1 s.2).mapError .ofCodegen := by
  have ht : (enterDeclarations o.entry p).answer = .ok t := by rw [h]
  have hcheck := buildAndCheck_of_ok ht
  rw [h] at hcheck
  unfold checkThenAllocate
  dsimp only
  cases hb : (checkBodies t q).answer with
  | error e =>
    have herror : (buildAndCheck o p).answer = .error e := by rw [hcheck, hb]; rfl
    rw [compile_of_error herror]
    rfl
  | ok _ =>
    have hok : (buildAndCheck o p).answer = .ok (checkBodies t q).tree.1 := by
      rw [hcheck, hb]
      rfl
    have htree : (buildAndCheck o p).tree = (checkBodies t q).tree.2 := by rw [hcheck]
    cases hr : (allocate o.leaves (checkBodies t q).tree.2).run (checkBodies t q).tree.1 with
    | error f u =>
      rw [compile_of_unallocated hok (by rw [htree]; exact hr)]
      rfl
    | ok _ u =>
      rw [compile_of_allocated hok (by rw [htree]; exact hr), htree]
      rfl

/-- Of an accepted program, allocating before checking makes what checking before allocating
makes. -/
theorem allocateThenCheck_eq (hH : t.Holds q.heads) (h : (checkBodies t q).answer = .ok ())
    (leaves : Bool) : allocateThenCheck leaves t q = checkThenAllocate leaves t q := by
  have hempty : ∀ c ∈ q.opened t, c.entries = [] := ProcDecl.entries_of_mem_openedOf _
  have hgrown : GrownBy (q.opened t) t (checkBodies t q).tree.1 := by
    obtain ⟨added, hscopes, -, hall⟩ := checkBodies_opens hH
    exact ⟨hH.hasScope, hH.enclosing, by rw [hscopes, hall () h]⟩
  have hstep := allocate_grownBy hempty t q leaves
  unfold allocateThenCheck checkThenAllocate
  dsimp only
  rw [h]
  cases hu : (allocate leaves q).run t with
  | ok _ u =>
    obtain ⟨u', hu', hR⟩ := hstep.ok hgrown hu
    have hf := frames_of_run hH hu
    obtain ⟨_, hok, htree, hscopes⟩ :=
      checkBodies_writesPlaces hH (hf.holds hH) hf.writes () h
    have htable : (checkBodies u q).tree.1 = u' := by
      rw [← hR.scopes] at hscopes
      exact congrArg SymbolTable.mk hscopes
    rw [hu']
    dsimp only
    rw [hok, ← htable, ← htree]
  | error f u =>
    obtain ⟨f', u', hu', halike⟩ := hstep.error hgrown hu
    -- The only fault that the allocation of an accepted program can end in is an overflow.
    have hA : Accepted (checkBodies t q).tree.1 (checkBodies t q).tree.2 :=
      (checkBodies_meets (A := True) hH fun _ _ => .inr trivial).of_ok h
    obtain ⟨rfl, -⟩ := (allocate_ends (A := True) hA (.inr trivial)).error hu'
    rw [hu', (halike .addition).2 rfl]

/-- The table of a program holds its procedures. -/
theorem holds_of_entered {entry : String} (h : enterDeclarations entry p = ⟨q, .ok t⟩) :
    t.Holds q.heads := by
  have hmeets := (enterDeclarations_meets (A := True) entry p (.inr trivial)).of_ok
    (show _ = Except.ok t by rw [h])
  rw [h] at hmeets
  exact hmeets.1

/-- The check and the allocation touch only what is theirs. The check, whether or not it succeeds,
leaves all scopes as they are and appends empty ones; if it succeeds, one for each compound
statement, inside the scope of that statement. A successful allocation, before or after the check,
changes only places and frames of the program's procedures; another one after it, with any leaf
setting, leaves the table that it leaves without the first one. So where the check succeeds, the
allocation may come before it: the table, the tree, a fault of the allocation and the outcome of
the compilation are the same. -/
theorem checkBodies_allocate_apart (entry : String) (p q : Program) (t : SymbolTable)
    (h : enterDeclarations entry p = ⟨q, .ok t⟩) :
    ((∃ added, (checkBodies t q).tree.1.scopes = t.scopes ++ added ∧ added <+: q.opened t ∧
        ((checkBodies t q).answer = .ok () → added = q.opened t)) ∧
      (q.opened t).length = q.compounds ∧ ∀ c ∈ q.opened t, c.entries = []) ∧
    (∀ s, s = (t, q) ∨ s = (checkBodies t q).tree → ∀ leaves u,
      (allocate leaves s.2).run s.1 = .ok () u → WritesFrames s.2 s.1 u ∧
        ∀ leaves', ∃ w, (allocate leaves' s.2).run s.1 = .ok () w ∧
          (allocate leaves' s.2).run u = .ok () w) ∧
    ((checkBodies t q).answer = .ok () → ∀ o : Options, o.entry = entry →
      allocateThenCheck o.leaves t q = checkThenAllocate o.leaves t q ∧
      (compile o p).answer = allocateThenCheck o.leaves t q >>= fun s =>
        (generate s.1 s.2).mapError .ofCodegen) := by
  have ht : (enterDeclarations entry p).answer = .ok t := by rw [h]
  have hH : t.Holds q.heads := holds_of_entered h
  have hnames : ∀ id, (t.scope id).names.Nodup := (enterDeclarations_nested ht).nodup
  have hempty : ∀ c ∈ q.opened t, c.entries = [] := ProcDecl.entries_of_mem_openedOf _
  have hopens := checkBodies_opens hH
  refine ⟨⟨?_, ?_, hempty⟩, fun s hs leaves u hu => ?_, fun hok o ho => ?_⟩
  · obtain ⟨added, hscopes, hfirst, hall⟩ := hopens
    exact ⟨added, hscopes, hfirst, hall ()⟩
  · refine Program.length_opened fun d hd => ?_
    obtain ⟨P, hP⟩ := hH.declares d.head (mem_heads hd)
    exact Option.isSome_iff_exists.2 ⟨P, hP.procedure⟩
  · have hboth : s.1.Holds s.2.heads ∧ ∀ id, (s.1.scope id).names.Nodup := by
      rcases hs with rfl | rfl
      · exact ⟨hH, hnames⟩
      · obtain ⟨added, hscopes, hfirst, -⟩ := hopens
        have hadded : ∀ c ∈ added, c.entries = [] := fun c hc => hempty c (hfirst.subset hc)
        refine ⟨?_, fun id => ?_⟩
        · rw [checkBodies_heads]
          exact (Extends.of_scopes hadded hscopes).holds hH
        · have hgrown : GrownBy added t (checkBodies t q).tree.1 :=
            ⟨hH.hasScope, hH.enclosing, hscopes⟩
          rw [Scope.names, hgrown.entries_eq hadded]
          exact hnames id
    exact ⟨allocate_writesFrames hboth.1 hboth.2 hu, allocate_again hboth.1 hboth.2 hu⟩
  · subst ho
    have heq := allocateThenCheck_eq hH hok o.leaves
    exact ⟨heq, by rw [heq, compile_eq_checkThenAllocate h]⟩

section
open Build

/-- A program whose procedures are allocated in frames of different sizes, and whose bodies have
compound statements inside one another. -/
def nestedBlocks : Program := program [
  procDecl "fill" [refParam "v" (arrayType 3 intType)] [varDecl "i" intType] [
    whileDo (binary (.compare .lst) (var (named "i")) (int 3)) (compound [
      ifThen (binary (.compare .equ) (var (named "i")) (int 1)) (compound []),
      assign (index (named "v") (var (named "i"))) (int 0),
      assign (named "i") (binary (.arith .add) (var (named "i")) (int 1))])],
  procDecl "main" [] [varDecl "v" (arrayType 3 intType)] [
    compound [call "fill" [var (named "v")]]]]

theorem checkBodies_allocate_apart_nestedBlocks :
    ∃ q t, enterDeclarations "main" nestedBlocks = ⟨q, .ok t⟩ ∧ q.compounds = 3 ∧
      (checkBodies t q).answer = .ok () ∧
      (checkBodies t q).tree.1.scopes = t.scopes ++ q.opened t ∧ (q.opened t).length = 3 ∧
      (∃ u w, (allocate true q).run t = .ok () u ∧ WritesFrames q t u ∧
        (allocate false q).run t = .ok () w ∧ (allocate false q).run u = .ok () w) ∧
      ∃ s, allocateThenCheck true t q = .ok s ∧ checkThenAllocate true t q = .ok s := by
  have hruns : (enterDeclarations "main" nestedBlocks).tree.compounds = 3 ∧
      (enterDeclarations "main" nestedBlocks).answer.toOption.any (fun t =>
        (checkBodies t (enterDeclarations "main" nestedBlocks).tree).answer.toOption.isSome &&
        (allocateThenCheck true t (enterDeclarations "main" nestedBlocks).tree).toOption.isSome) =
          true := by decide +kernel
  rcases h : enterDeclarations "main" nestedBlocks with ⟨q, x⟩
  rw [h] at hruns
  obtain ⟨hcompounds, hruns⟩ := hruns
  cases x with
  | error e => cases hruns
  | ok t =>
    rw [Except.toOption, Option.any_some, Bool.and_eq_true] at hruns
    obtain ⟨⟨⟩, hok⟩ := exists_ok_of_isSome hruns.1
    obtain ⟨s, hs⟩ := exists_ok_of_isSome hruns.2
    obtain ⟨⟨⟨added, hscopes, -, hall⟩, hlength, -⟩, halloc, hcommute⟩ :=
      checkBodies_allocate_apart "main" nestedBlocks q t h
    obtain ⟨heq, -⟩ := hcommute hok { leaves := true } rfl
    cases hu : (allocate true q).run t with
    | error f u =>
      rw [allocateThenCheck, hu] at hs
      cases hs
    | ok _ u =>
      obtain ⟨hwrites, hagain⟩ := halloc (t, q) (.inl rfl) true u hu
      obtain ⟨w, hw, hw'⟩ := hagain false
      refine ⟨q, t, rfl, hcompounds, hok, ?_, hlength.trans hcompounds,
        ⟨u, w, hu, hwrites, hw, hw'⟩, s, hs, heq ▸ hs⟩
      rw [hscopes, hall hok]

end

end Spl
