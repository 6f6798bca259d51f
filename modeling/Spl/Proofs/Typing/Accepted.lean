import Spl.Compile
import Spl.Proofs.Typing.Declarations

/-!
# Accepted programs

What is known of a program that passes the check of declarations and bodies, and of its table.

* `Accepted`: the table holds the program's procedures and all bodies are well typed.
* `buildAndCheck_meets`: the first two phases accept such programs only, and end in no fault on a
  fresh program.
-/

namespace Spl

open SymbolTable

variable {A : Prop} {t : SymbolTable}

/-- The table of a program whose declarations and bodies are correct. -/
structure Accepted (t : SymbolTable) (p : Program) : Prop where
  holds : t.Holds p.heads
  bodies : ∀ d ∈ p.procedures, ∀ P, t.Declares d P →
    ∀ s ∈ d.body, s.WellTyped (t.typeEnv P.localScope)

theorem declares_head_iff {d : ProcDecl} {P : Procedure} :
    t.Declares d.head P ↔ t.Declares d P := by
  constructor <;>
    exact fun h => ⟨h.procedure, h.hasScope, h.ne_global, h.enclosing, h.nodup, h.parameters,
      h.locals, h.only, h.room⟩

theorem Accepted.declares {p : Program} (h : Accepted t p) {d : ProcDecl}
    (hd : d ∈ p.procedures) : ∃ P, t.Declares d P := by
  obtain ⟨P, hP⟩ := h.holds.declares d.head (List.mem_map_of_mem hd)
  exact ⟨P, declares_head_iff.1 hP⟩

/-- The procedures of an accepted program have distinct names. -/
theorem Accepted.nodup_names {p : Program} (h : Accepted t p) :
    (p.procedures.map (·.name)).Nodup := by
  have hn := h.holds.nodup
  rwa [Program.heads, List.map_map] at hn

theorem SymbolTable.Extends.holds {t' : SymbolTable} {ds : List ProcDecl} (h : t.Extends t')
    (hH : t.Holds ds) : t'.Holds ds := by
  have hgr := h.grows hH.hasScope
  have hg := h.scope_eq hH.hasScope
  have hback : ∀ d ∈ ds, ∀ P, t'.Declares d P → t.Declares d P := fun d hd P hP => by
    obtain ⟨Q, hQ⟩ := hH.declares d hd
    rw [hP.unique (hQ.grow hgr)]
    exact hQ
  exact
    { hasScope := h.hasScope hH.hasScope
      enclosing := by rw [hg]; exact hH.enclosing
      nodup := hH.nodup
      declares := fun d hd => (hH.declares d hd).imp fun P hP => hP.grow hgr
      separate := fun d hd d' hd' P P' hP hP' =>
        hH.separate d hd d' hd' P P' (hback d hd P hP) (hback d' hd' P' hP')
      builtins := fun b hb => (hH.builtins b hb).imp fun P hP => ⟨hgr.procedure? hP.1, hP.2⟩
      notBuiltin := hH.notBuiltin
      only := by rw [hg]; exact hH.only }

/-- What no visit of a declaration changes in its procedure, a list of visits leaves as it is. -/
theorem Visit.map_procedures_thread {ε σ α β : Type} {f : ProcDecl → β}
    {visit : σ → Decl → Visit ε (σ × Decl) α}
    (h : ∀ s d, (visit s d).tree.2.procedure?.map f = d.procedure?.map f) (s : σ)
    (ds : List Decl) :
    ((Visit.thread visit s ds).tree.2.filterMap Decl.procedure?).map f =
      (ds.filterMap Decl.procedure?).map f := by
  have hds := Visit.forall₂_thread (R := fun d d' => d'.procedure?.map f = d.procedure?.map f)
    (fun _ => rfl) h ds s
  rw [List.map_filterMap, List.map_filterMap]
  generalize (Visit.thread visit s ds).tree.2 = ds' at hds ⊢
  induction hds with
  | nil => rfl
  | cons hd _ ih => rw [List.filterMap_cons, List.filterMap_cons, hd, ih]

/-- The bodies of the procedures checked so far, whose heads are those of the procedures seen. -/
structure BodiesChecked (t t' : SymbolTable) (seen done : List Decl) : Prop where
  ext : t.Extends t'
  heads : (done.filterMap Decl.procedure?).map ProcDecl.head =
    (seen.filterMap Decl.procedure?).map ProcDecl.head
  bodies : ∀ d ∈ done.filterMap Decl.procedure?, ∀ P, t.Declares d P →
    ∀ s ∈ d.body, s.WellTyped (t.typeEnv P.localScope)

/-- Checking the bodies of a program whose procedures the table holds. -/
theorem checkBodies_meets {p : Program} (hH : t.Holds p.heads)
    (h : ∀ d ∈ p.procedures, Stmt.allFresh d.body = true ∨ A) :
    (checkBodies t p).Meets A fun (t', p') _ => Accepted t' p' := by
  unfold checkBodies
  refine .map (.mapTree (Visit.Meets.mono (Visit.Meets.thread
    (I := fun t' seen done _ => BodiesChecked t t' seen done)
    (fun d hd t' seen done _ hI => ?_) ⟨.refl t, rfl, by simp⟩) ?_))
  · cases d with
    | type d =>
      refine ⟨hI.ext, ?_, ?_⟩
      · simpa [List.filterMap_append, Decl.procedure?] using hI.heads
      · simpa [List.filterMap_append, Decl.procedure?] using hI.bodies
    | procedure d =>
      have hdp : d ∈ p.procedures := List.mem_filterMap.2 ⟨_, hd, rfl⟩
      obtain ⟨P, hP⟩ := hH.declares d.head (List.mem_map_of_mem hdp)
      have hP' := hP.grow (hI.ext.grows hH.hasScope)
      have hpr : t'.procedure? d.name = some P := hP'.procedure
      have hc : t.Closed P.localScope := hP.closed hH.hasScope
      unfold Decl.checkBody
      dsimp only
      rw [hpr]
      refine .mapTree ((Stmt.checkList_meets d.body (hI.ext.closed hc) (h d hdp)).mono ?_)
      intro v _ h
      obtain ⟨t'', body⟩ := v
      obtain ⟨hx, hb⟩ := h
      rw [hI.ext.typeEnv_eq hc] at hb
      refine ⟨hI.ext.trans hx, ?_, fun q hq Q hQ => ?_⟩
      · simp [List.filterMap_append, Decl.procedure?, hI.heads, ProcDecl.head]
      · rw [List.filterMap_append, List.mem_append] at hq
        rcases hq with hq | hq
        · exact hI.bodies q hq Q hQ
        · rw [List.mem_singleton.1 hq] at hQ ⊢
          rw [declares_head_iff.1 hP |>.unique ⟨hQ.procedure, hQ.hasScope, hQ.ne_global,
            hQ.enclosing, hQ.nodup, hQ.parameters, hQ.locals, hQ.only, hQ.room⟩] at hb
          exact hb
  · intro v _ hI
    obtain ⟨t', ds⟩ := v
    have hheads : Program.heads { p with declarations := ds } = p.heads := hI.heads
    refine ⟨by rw [hheads]; exact hI.ext.holds hH, fun d hd P hP => ?_⟩
    obtain ⟨Q, hQ⟩ := hH.declares d.head (by rw [← hheads]; exact List.mem_map_of_mem hd)
    have hQ' := declares_head_iff.1 (hQ.grow (hI.ext.grows hH.hasScope))
    rw [hP.unique hQ', hI.ext.typeEnv_eq (hQ.closed hH.hasScope)]
    exact hI.bodies d hd Q (declares_head_iff.1 hQ)

/-- The first two phases accept well-typed programs only, and end in no fault on a fresh one. -/
theorem buildAndCheck_meets (o : Options) (p : Program) (h : p.isFresh = true ∨ A) :
    (buildAndCheck o p).Meets A fun p' t => Accepted t p' := by
  unfold buildAndCheck
  refine (enterDeclarations_meets o.entry p h).andThen fun p' t ⟨hH, hb⟩ => ?_
  have hc := checkBodies_meets hH hb
  unfold Visit.Meets at *
  exact Meets.map hc

/-- A program that the first two phases accept. -/
theorem Accepted.of_ok {o : Options} {p : Program} (h : (buildAndCheck o p).answer = .ok t) :
    Accepted t (buildAndCheck o p).tree :=
  (buildAndCheck_meets (A := True) o p (.inr trivial)).of_ok h

end Spl
