import Spl.Proofs.Compile.Reruns
import Spl.Proofs.Typing.FirstError
import Spl.Tree.Build

/-!
# The first error of a program

The two semantic passes stop at the first error, in the order of the source text. Which error that
is depends on the parts before it only: the parts behind it may be replaced by any others. The slots
of these parts are left empty, and those of the parts before are filled.

* `Hole`, `Hole.fill`: the declarations around a statement.
* `Hole.Passed`: what the check has done when it comes to the statement.
* `Options.StopsAtDeclaration`, `Options.StopsAtStatement`: where a program fails.
* `buildAndCheck_firstError`: a program that fails does so in one of these places.
-/

namespace Spl

open Slotted

/-! ## Declarations -/

theorem Decl.BodyFull.slots {d : Decl} (h : d.BodyFull) :
    ∀ x ∈ Stmt.slotsOf d.body, x.type?.isSome = true := by
  cases d with
  | type => nofun
  | procedure d =>
    rw [Stmt.slotsOf_eq]
    exact h

/-- A declaration that has been entered is the same up to slots, and its body is as it was. -/
structure Decl.EnteredAs (d d' : Decl) : Prop where
  bare : d'.bare = d.bare
  body : d'.body = d.body

theorem enterDeclaration_enteredAs (t : SymbolTable) (d : Decl) :
    d.EnteredAs (enterDeclaration t d).tree.2 := by
  have hbare : (enterDeclaration t d).tree.2.bare = d.bare :=
    (enterDeclaration_stable t d).kept.bare
  refine ⟨hbare, ?_⟩
  have hrun := congrArg (·.tree.2) (enterDeclaration_withBody t d d.body)
  rw [Decl.withBody_of_body_eq rfl] at hrun
  dsimp only [Visit.mapTree] at hrun
  generalize (enterDeclaration t d).tree.2 = d' at hbare hrun
  cases d' with
  | type =>
    cases d with
    | type => rfl
    | procedure => cases hbare
  | procedure d' =>
    rw [hrun]
    rfl

theorem Program.entered_enteredAs (p : Program) :
    List.Forall₂ Decl.EnteredAs p.declarations p.entered.tree.2 :=
  Visit.forall₂_thread (fun _ => ⟨rfl, rfl⟩) enterDeclaration_enteredAs p.declarations .predefined

theorem checkEntry_otherBodies {p : Program} {ds : List Decl}
    (h : List.Forall₂ Decl.OtherBody p.declarations ds) (entry : String) :
    checkEntry entry { p with declarations := ds } = checkEntry entry p := by
  have hname (d : Decl) : (d.withBody []).name = d.name := by cases d <;> rfl
  -- Without their bodies, the declarations are the same.
  have hwithout (q : Program) : checkEntry entry q =
      checkEntry entry { q with declarations := q.declarations.map (Decl.withBody []) } := by
    unfold checkEntry
    rw [List.find?_map, show (fun d : Decl => decide (d.name = entry)) ∘ Decl.withBody [] =
      fun d => decide (d.name = entry) from funext fun d => by simp only [Function.comp, hname]]
    rcases q.declarations.find? _ with _ | _ | d <;> rfl
  have hds : ds.map (Decl.withBody []) = p.declarations.map (Decl.withBody []) := by
    generalize p.declarations = ds₀ at h ⊢
    induction h with
    | nil => rfl
    | cons hd _ ih => rw [List.map_cons, List.map_cons, hd.withBody_eq, ih]
  rw [hwithout, hwithout p]
  dsimp only
  rw [hds]

/-! ## Programs around a statement -/

/-- The declarations of a program without one of the statements in its bodies. The statement is in
the body of `procedure`, of which all but the body counts here: inside `layers`, with `before` and
`after` around them. -/
structure Hole where
  earlier : List Decl
  procedure : ProcDecl
  before : List Stmt
  layers : List Stmt.Layer
  after : List Stmt
  later : List Decl

namespace Hole

/-- The declarations with a statement in its place. -/
def fill (h : Hole) (s : Stmt) : List Decl :=
  h.earlier ++
    .procedure { h.procedure with body := h.before ++ Stmt.within h.layers s :: h.after } :: h.later

/-- The hole with all slots around it empty. -/
def bare (h : Hole) : Hole where
  earlier := h.earlier.map Decl.bare
  procedure := { h.procedure.bare with body := [] }
  before := Stmt.bareOf h.before
  layers := h.layers.map Stmt.Layer.bare
  after := Stmt.bareOf h.after
  later := h.later.map Decl.bare

/-- The slots of what is checked before the statement: the bodies of the procedures before its own,
the statements before it in its own body, and the conditions that it depends on. -/
def earlierSlots (h : Hole) : List TypeSlot :=
  h.earlier.flatMap (Stmt.slotsOf ·.body) ++ (Stmt.slotsOf h.before ++
    h.layers.flatMap Stmt.Layer.earlierSlots)

/-- The slots of what comes behind the statement: the statements behind it in its own body, at any
depth, and the bodies of the procedures behind its own. -/
def laterSlots (h : Hole) : List TypeSlot :=
  h.layers.flatMap Stmt.Layer.laterSlots ++ (Stmt.slotsOf h.after ++
    h.later.flatMap (Stmt.slotsOf ·.body))

/-- Two holes that differ at most in what comes behind the statement. -/
structure SameBefore (h h' : Hole) : Prop where
  earlier : h'.earlier = h.earlier
  procedure : h'.procedure = h.procedure
  before : h'.before = h.before
  layers : List.Forall₂ Stmt.Layer.SameBefore h.layers h'.layers
  later : List.Forall₂ Decl.OtherBody h.later h'.later

theorem SameBefore.otherBodies {h h' : Hole} (hh : h.SameBefore h') (s s' : Stmt) :
    List.Forall₂ Decl.OtherBody (h.fill s) (h'.fill s') := by
  unfold fill
  rw [hh.earlier, hh.procedure]
  refine List.rel_append (List.forall₂_same.2 fun d _ => .refl d) (.cons ?_ hh.later)
  exact @Decl.OtherBody.procedure { h.procedure with body := _ } _

/-- When the check of bodies comes to the hole, it has passed everything before it, and left the
second hole. It goes on with the statement, at a scope of a table. -/
inductive Passed (t₀ : SymbolTable) : Hole → Hole → ScopeId → SymbolTable → Prop
  | mk {earlier earlier' later : List Decl} {procedure : ProcDecl}
      {before before' after : List Stmt} {layers layers' : List Stmt.Layer} {t₁ t₂ t : SymbolTable}
      {as : List Unit} {P : Procedure} {scope : ScopeId}
      (hearlier : Visit.thread Decl.checkBody t₀ earlier = ⟨(t₁, earlier'), .ok as⟩)
      (hP : t₁.procedure? procedure.name = some P)
      (hbefore : Stmt.checkList P.localScope t₁ before = ⟨(t₂, before'), .ok ()⟩)
      (hlayers : Stmt.PassedAll P.localScope t₂ layers layers' scope t) :
      Passed t₀ ⟨earlier, procedure, before, layers, after, later⟩
        ⟨earlier', procedure, before', layers', after, later⟩ scope t

variable {t₀ t u : SymbolTable} {h h' g : Hole} {scope : ScopeId}

theorem Passed.sameBefore (hh : h.Passed t₀ h' scope t) (hearlier : g.earlier = h.earlier)
    (hprocedure : g.procedure.name = h.procedure.name) (hbefore : g.before = h.before)
    (hlayers : List.Forall₂ Stmt.Layer.SameBefore h.layers g.layers) :
    ∃ g', g.Passed t₀ g' scope t := by
  obtain ⟨_, procedure, _, layers, after, later⟩ := g
  cases hh with
  | mk hearlier' hP hbefore' hlayers' =>
    cases hearlier
    cases hbefore
    obtain ⟨layers', hlayers'⟩ := hlayers'.sameBefore hlayers
    exact ⟨_, .mk hearlier' (by rwa [hprocedure]) hbefore' hlayers'⟩

/-- The check of bodies fails if, after all that comes before, the statement does. -/
theorem Passed.check_fill (hh : h.Passed t₀ h' scope t) {s s' : Stmt} {e : Failure SemanticError}
    (hs : s.check scope t = ⟨(u, s'), .error e⟩) :
    Visit.thread Decl.checkBody t₀ (h.fill s) = ⟨(u, h'.fill s'), .error e⟩ := by
  cases hh with
  | @mk earlier earlier' later procedure before before' after layers layers' t₁ t₂ _ as P _
      hearlier hP hbefore hlayers =>
    have hbody := Stmt.checkList_eq_error_iff.2
      ⟨before, _, after, t₂, before', _, rfl, hbefore, hlayers.check_within hs, rfl⟩
    refine Visit.thread_eq_error_iff.2
      ⟨earlier, _, later, t₁, earlier', as, _, rfl, hearlier, ?_, rfl⟩
    unfold Decl.checkBody
    dsimp only
    rw [hP]
    dsimp only
    rw [hbody]
    rfl

/-- What has been checked is filled, and what comes behind is untouched. -/
theorem Passed.left (hh : h.Passed t₀ h' scope t) : h'.bare = h.bare ∧
    (∀ x ∈ h'.earlierSlots, x.type?.isSome = true) ∧ h'.laterSlots = h.laterSlots := by
  cases hh with
  | @mk earlier earlier' later procedure before before' after layers layers' t₁ t₂ _ as P _
      hearlier hP hbefore hlayers =>
    have hkept := Visit.Stable.thread Decl.checkBody_stable earlier t₀
    rw [hearlier] at hkept
    obtain ⟨hbare, hfull⟩ := Stmt.kept_of_checkList hbefore
    obtain ⟨hbares, hfulls, hlater⟩ := hlayers.left
    have hbodies : ∀ x ∈ earlier'.flatMap (Stmt.slotsOf ·.body), x.type?.isSome = true := by
      intro x hx
      obtain ⟨d, hd, hx⟩ := List.mem_flatMap.1 hx
      exact (hkept.full as rfl d hd).slots x hx
    refine ⟨?_, List.forall_mem_append.2 ⟨hbodies, List.forall_mem_append.2 ⟨hfull, hfulls⟩⟩, ?_⟩
    · have hearlier' : earlier'.map Decl.bare = earlier.map Decl.bare := hkept.kept.bare
      simp only [bare, hearlier', hbare, hbares]
    · simp only [laterSlots, hlater]

/-- A check of bodies that finds an error stops at a statement that is wrong in itself. -/
theorem exists_passed {ds ds' : List Decl} {e : Located SemanticError}
    (hds : Visit.thread Decl.checkBody t₀ ds = ⟨(u, ds'), .error (.error e)⟩) :
    ∃ h h' s scope t, ds = fill h s ∧ h.Passed t₀ h' scope t ∧
      s.FailsItself scope t (.error e) := by
  obtain ⟨earlier, d, later, t₁, earlier', as, d', rfl, hearlier, hd, -⟩ :=
    Visit.thread_eq_error_iff.1 hds
  cases d with
  | type d => cases hd
  | procedure d =>
    unfold Decl.checkBody at hd
    dsimp only at hd
    cases hP : t₁.procedure? d.name with
    | none =>
      rw [hP] at hd
      cases hd
    | some P =>
      rw [hP] at hd
      dsimp only at hd
      rcases hbody : Stmt.checkList P.localScope t₁ d.body with ⟨⟨u', body'⟩, x⟩
      rw [hbody] at hd
      cases hd
      obtain ⟨before, s, after, t₂, before', s', hsplit, hbefore, hs, -⟩ :=
        Stmt.checkList_eq_error_iff.1 hbody
      obtain ⟨ls, ls', s₀, scope, t, rfl, hls, hs₀⟩ := Stmt.failsInside s (by rw [hs])
      refine ⟨⟨earlier, d, before, ls, after, later⟩, _, s₀, scope, t, ?_,
        .mk hearlier hP hbefore hls, hs₀⟩
      show _ = earlier ++
        .procedure { d with body := before ++ Stmt.within ls s₀ :: after } :: later
      rw [← hsplit]

/-- The hole in the declarations after they have been entered. -/
structure EnteredAs (h h' : Hole) : Prop where
  earlier : List.Forall₂ Decl.EnteredAs h.earlier h'.earlier
  procedure : { h'.procedure.bare with body := [] } = { h.procedure.bare with body := [] }
  before : h'.before = h.before
  layers : h'.layers = h.layers
  after : h'.after = h.after
  later : List.Forall₂ Decl.EnteredAs h.later h'.later

/-- A statement of a program that has been entered has the same place in the program before. -/
theorem exists_enteredAs {ds : List Decl} {s : Stmt}
    (hds : List.Forall₂ Decl.EnteredAs ds (h'.fill s)) :
    ∃ h, ds = fill h s ∧ h.EnteredAs h' := by
  have hearlier := List.forall₂_take_append _ _ _ hds
  have hrest := List.forall₂_drop_append _ _ _ hds
  rw [← List.take_append_drop h'.earlier.length ds]
  cases hrest' : ds.drop h'.earlier.length with
  | nil =>
    rw [hrest'] at hrest
    cases hrest
  | cons d later =>
    rw [hrest'] at hrest
    cases hrest with
    | cons hd hlater =>
      obtain ⟨hbare, hbody⟩ := hd
      cases d with
      | type => cases hbare
      | procedure d =>
        refine ⟨⟨_, d, h'.before, h'.layers, h'.after, later⟩, ?_, hearlier, ?_, rfl, rfl, rfl,
          hlater⟩
        · have hbody : d.body = h'.before ++ Stmt.within h'.layers s :: h'.after := hbody.symm
          dsimp only [fill]
          rw [← hbody]
        · have hbare := Decl.procedure.inj hbare
          exact congrArg (fun d : ProcDecl => { d with body := [] }) hbare

theorem EnteredAs.bare_eq (hh : h.EnteredAs h') : h'.bare = h.bare := by
  have hds {ds ds' : List Decl} (hds : List.Forall₂ Decl.EnteredAs ds ds') :
      ds'.map Decl.bare = ds.map Decl.bare := by
    induction hds with
    | nil => rfl
    | cons hd _ ih => rw [List.map_cons, List.map_cons, hd.bare, ih]
  simp only [bare, hds hh.earlier, hh.procedure, hh.before, hh.layers, hh.after, hds hh.later]

theorem EnteredAs.laterSlots_eq (hh : h.EnteredAs h') : h'.laterSlots = h.laterSlots := by
  have hds : h'.later.flatMap (Stmt.slotsOf ·.body) = h.later.flatMap (Stmt.slotsOf ·.body) := by
    have hlater := hh.later
    generalize h.later = ds, h'.later = ds' at hlater ⊢
    induction hlater with
    | nil => rfl
    | cons hd _ ih => rw [List.flatMap_cons, List.flatMap_cons, hd.body, ih]
  simp only [laterSlots, hh.layers, hh.after, hds]

/-- The hole with the parts behind the statement that another one has. -/
def withLater (h g : Hole) : Hole :=
  { h with
    layers := g.layers
    after := g.after
    later := List.zipWith (fun d d' : Decl => d.withBody d'.body) h.later g.later }

/-- If parts behind the statement are replaced before the declarations are entered, the same parts
are replaced after that. -/
theorem EnteredAs.entered {p : Program} {s : Stmt} {as : List Unit} (hh : h.EnteredAs h')
    (hp : p.declarations = h.fill s) (hentered : p.entered = ⟨(t₀, h'.fill s), .ok as⟩)
    (hg : h.SameBefore g) (s' : Stmt) :
    Program.entered { p with declarations := g.fill s' } =
      ⟨(t₀, (h'.withLater g).fill s'), .ok as⟩ := by
  have hearlier : List.zipWith (fun d d' : Decl => d.withBody d'.body) h'.earlier h.earlier =
      h'.earlier :=
    zipWith_eq_left (hh.earlier.flip.imp fun _ _ hd => Decl.withBody_of_body_eq hd.body)
  have hfill : List.zipWith (fun d d' : Decl => d.withBody d'.body) (h'.fill s) (g.fill s') =
      (h'.withLater g).fill s' := by
    unfold fill
    rw [List.zipWith_append (by rw [hg.earlier, hh.earlier.length_eq]), List.zipWith_cons_cons,
      hg.earlier, hearlier]
    dsimp only [Decl.withBody, Decl.body, withLater]
    rw [hg.before, hh.before]
  have hother := hg.otherBodies s s'
  rw [← hp] at hother
  have hrun : Program.entered { p with declarations := g.fill s' } = p.entered.mapTree _ :=
    thread_enterDeclaration_otherBodies hother .predefined
  rw [hrun, hentered, Visit.mapTree, hfill]

end Hole

/-! ## Where a program fails -/

section

variable {o : Options} {p : Program} {e : Failure SemanticError}

theorem buildAndCheck_of_entered_error {x : SymbolTable × List Decl}
    (h : p.entered = ⟨x, .error e⟩) :
    (buildAndCheck o p).answer = .error e := by
  rw [buildAndCheck_of_error (by rw [enterDeclarations_of_error h])]

theorem enterDeclarations_of_entered {t₀ : SymbolTable} {ds : List Decl} {as : List Unit}
    (h : p.entered = ⟨(t₀, ds), .ok as⟩) (hentry : checkEntry o.entry p = .ok ()) :
    enterDeclarations o.entry p = ⟨{ p with declarations := ds }, .ok t₀⟩ := by
  rw [enterDeclarations_of_ok h, hentry]
  rfl

theorem buildAndCheck_of_thread_error {t₀ u : SymbolTable} {ds ds' : List Decl} {as : List Unit}
    (h : p.entered = ⟨(t₀, ds), .ok as⟩) (hentry : checkEntry o.entry p = .ok ())
    (hds : Visit.thread Decl.checkBody t₀ ds = ⟨(u, ds'), .error e⟩) :
    buildAndCheck o p = ⟨{ p with declarations := ds' }, .error e⟩ := by
  have henter := enterDeclarations_of_entered (o := o) h hentry
  rw [buildAndCheck_of_ok (by rw [henter]), henter]
  unfold checkBodies
  dsimp only
  rw [hds]
  rfl

/-- The first two passes fail at a declaration, at the entry point, or in a body. -/
theorem buildAndCheck_error_cases (h : (buildAndCheck o p).answer = .error e) :
    (∃ x, p.entered = ⟨x, .error e⟩) ∨ ∃ t₀ ds as, p.entered = ⟨(t₀, ds), .ok as⟩ ∧
      (checkEntry o.entry p = .error e ∨ checkEntry o.entry p = .ok () ∧
        ∃ u ds', Visit.thread Decl.checkBody t₀ ds = ⟨(u, ds'), .error e⟩) := by
  rcases hp : p.entered with ⟨⟨t₀, ds⟩, x⟩
  cases x with
  | error f =>
    rw [buildAndCheck_of_entered_error hp] at h
    cases h
    exact .inl ⟨_, rfl⟩
  | ok as =>
    refine .inr ⟨t₀, ds, as, rfl, ?_⟩
    cases hentry : checkEntry o.entry p with
    | error f =>
      have hf : (enterDeclarations o.entry p).answer = .error f := by
        rw [enterDeclarations_of_ok hp, hentry]
        rfl
      rw [buildAndCheck_of_error hf] at h
      cases h
      exact .inl rfl
    | ok _ =>
      have henter := enterDeclarations_of_entered (o := o) hp hentry
      rw [buildAndCheck_of_ok (by rw [henter]), henter] at h
      unfold checkBodies at h
      dsimp only at h
      rcases hds : Visit.thread Decl.checkBody t₀ ds with ⟨⟨u, ds'⟩, y⟩
      rw [hds] at h
      cases y with
      | ok _ => cases h
      | error f =>
        cases h
        exact .inr ⟨rfl, u, ds', rfl⟩

end

/-- The first pass fails at the declaration `d` of a program, with the error `e`. The declarations
before `d` have been entered by then. The error stays the same if other declarations come behind `d`
and all bodies are others. -/
structure Options.StopsAtDeclaration (o : Options) (p : Program) (e : Located SemanticError)
    (before : List Decl) (d : Decl) (after : List Decl) : Prop where
  split : p.declarations = before ++ d :: after
  fails : ∃ t ds as, Visit.thread enterDeclaration .predefined before = ⟨(t, ds), .ok as⟩ ∧
    (enterDeclaration t d).answer = .error (.error e)
  same : ∀ before' d' after', List.Forall₂ Decl.OtherBody before before' → d.OtherBody d' →
    (buildAndCheck o { p with declarations := before' ++ d' :: after' }).answer = .error (.error e)

/-- The second pass fails in the statement `s` of a program, with the error `e`, and has come to the
scope of a table by then.

* `same`: the error stays the same if other parts come behind `s`, also inside of `s`.
* `place`: any statement in the place of `s` that fails at this scope of this table makes the
  program fail with the same error.
* `left`: in the tree that is left, all slots of the parts before `s` are filled, and all slots of
  the parts behind it are empty, also inside of `s`.
* `call`: of the errors of a call, the first one is reported. -/
structure Options.StopsAtStatement (o : Options) (p : Program) (e : Located SemanticError)
    (hole : Hole) (s : Stmt) (scope : ScopeId) (t : SymbolTable) : Prop where
  entered : ∃ t₀, (enterDeclarations o.entry p).answer = .ok t₀
  split : p.declarations = hole.fill s
  fails : (s.check scope t).answer = .error (.error e)
  same : ∀ hole' s', hole.SameBefore hole' → s.SameHead s' →
    (buildAndCheck o { p with declarations := hole'.fill s' }).answer = .error (.error e)
  place : ∀ hole' s' f, hole.SameBefore hole' → (s'.check scope t).answer = .error f →
    (buildAndCheck o { p with declarations := hole'.fill s' }).answer = .error f
  left : ∃ (hole' : Hole) (s' : Stmt), (buildAndCheck o p).tree.declarations = hole'.fill s' ∧
    hole'.bare = hole.bare ∧ s'.bare = s.bare ∧
    (∀ x ∈ hole'.earlierSlots, x.type?.isSome = true) ∧
    ∀ x ∈ hole'.laterSlots ++ s'.innerSlots, x.type? = none
  call : ∀ c, s = .call c → c.Reports t scope e

theorem Stmt.SameHead.refl (s : Stmt) : s.SameHead s := by cases s <;> constructor

theorem Program.stopsAtDeclaration {o : Options} {p : Program} {e : Located SemanticError}
    {x : SymbolTable × List Decl} (h : p.entered = ⟨x, .error (.error e)⟩) :
    ∃ before d after, o.StopsAtDeclaration p e before d after := by
  obtain ⟨u, ds⟩ := x
  obtain ⟨before, d, after, t, before', as, d', hsplit, hbefore, hd, -⟩ :=
    Visit.thread_eq_error_iff.1 h
  refine ⟨before, d, after, hsplit, ⟨t, before', as, hbefore, by rw [hd]⟩, ?_⟩
  intro bs c cs hbs hc
  have hbs' := thread_enterDeclaration_otherBodies hbs .predefined
  have hc' := enterDeclaration_withBody t d c.body
  rw [hbefore] at hbs'
  rw [← hc.eq_withBody, hd] at hc'
  have hentered := Visit.thread_eq_error_iff.2
    ⟨bs, c, cs, t, _, as, _, rfl, hbs', hc', rfl⟩
  exact buildAndCheck_of_entered_error hentered

theorem Options.StopsAtDeclaration.entered {o : Options} {p : Program} {e : Located SemanticError}
    {before after : List Decl} {d : Decl} (h : o.StopsAtDeclaration p e before d after) :
    ∃ x, p.entered = ⟨x, .error (.error e)⟩ := by
  obtain ⟨t, ds, as, hbefore, hd⟩ := h.fails
  rcases hrun : enterDeclaration t d with ⟨⟨u, d'⟩, x⟩
  rw [hrun] at hd
  cases hd
  exact ⟨_, Visit.thread_eq_error_iff.2
    ⟨before, d, after, t, ds, as, d', h.split, hbefore, hrun, rfl⟩⟩

theorem Decl.slots_body_empty {d : Decl} (h : d.isFresh = true) :
    ∀ x ∈ Stmt.slotsOf d.body, x.type? = none := by
  cases d with
  | type => nofun
  | procedure d =>
    have hbody : Stmt.allFresh d.body = true := (Bool.and_eq_true_iff.1 h).2
    rw [Stmt.allFresh_eq_all, List.all_eq_true] at hbody
    exact fun x hx => TypeSlot.type?_of_isEmpty (hbody x hx)

/-- In a fresh program, all slots behind a statement are empty. -/
theorem Hole.laterSlots_empty {p : Program} (hp : p.isFresh = true) {h : Hole} {s : Stmt}
    (hs : p.declarations = h.fill s) : ∀ x ∈ h.laterSlots ++ s.innerSlots, x.type? = none := by
  have hbodies (d : Decl) (hd : d ∈ h.fill s) : ∀ x ∈ Stmt.slotsOf d.body, x.type? = none :=
    Decl.slots_body_empty (List.all_eq_true.1 hp d (hs ▸ hd))
  have hbody := hbodies _ (List.mem_append_right _ (.head _))
  dsimp only [Decl.body] at hbody
  rw [Stmt.slotsOf_append, Stmt.slotsOf, List.forall_mem_append, List.forall_mem_append] at hbody
  obtain ⟨-, hwithin, hafter⟩ := hbody
  obtain ⟨hlayers, hinner⟩ := Stmt.subset_slots_within h.layers s
  refine List.forall_mem_append.2 ⟨List.forall_mem_append.2 ⟨fun x hx => hwithin x (hlayers hx),
    List.forall_mem_append.2 ⟨hafter, fun x hx => ?_⟩⟩,
    fun x hx => hwithin x (hinner (s.innerSlots_subset hx))⟩
  obtain ⟨d, hd, hx⟩ := List.mem_flatMap.1 hx
  exact hbodies d (List.mem_append_right _ (.tail _ hd)) x hx

theorem Program.stopsAtStatement {o : Options} {p : Program} (hp : p.isFresh = true)
    {e : Located SemanticError} {t₀ u : SymbolTable} {ds ds' : List Decl} {as : List Unit}
    (h : p.entered = ⟨(t₀, ds), .ok as⟩) (hentry : checkEntry o.entry p = .ok ())
    (hds : Visit.thread Decl.checkBody t₀ ds = ⟨(u, ds'), .error (.error e)⟩) :
    ∃ hole s scope t, o.StopsAtStatement p e hole s scope t := by
  have hentered := p.entered_enteredAs
  rw [h] at hentered
  obtain ⟨hole₁, hole₂, s, scope, t, hds₁, hpassed, hs⟩ := Hole.exists_passed hds
  rw [hds₁] at h hentered
  obtain ⟨hole, hsplit, hhole⟩ := Hole.exists_enteredAs hentered
  have hplace (hole' : Hole) (s' : Stmt) (f : Failure SemanticError)
      (hbefore : hole.SameBefore hole') (hs' : (s'.check scope t).answer = .error f) :
      (buildAndCheck o { p with declarations := hole'.fill s' }).answer = .error f := by
    have hentered' := hhole.entered hsplit h hbefore s'
    have hother := hbefore.otherBodies s s'
    rw [← hsplit] at hother
    have hentry' := (checkEntry_otherBodies hother o.entry).trans hentry
    obtain ⟨hole₂', hpassed'⟩ := hpassed.sameBefore (g := hole₁.withLater hole') rfl rfl rfl
      (hhole.layers ▸ hbefore.layers)
    rcases hx : s'.check scope t with ⟨⟨u', s''⟩, x⟩
    rw [hx] at hs'
    cases hs'
    rw [buildAndCheck_of_thread_error hentered' hentry' (hpassed'.check_fill hx)]
  refine ⟨hole, s, scope, t, ⟨t₀, ?_⟩, hsplit, hs.fails s (.refl s), ?_, hplace, ?_, ?_⟩
  · rw [enterDeclarations_of_entered h hentry]
  · exact fun hole' s' hbefore hs' => hplace hole' s' _ hbefore (hs.fails s' hs')
  · rcases hx : s.check scope t with ⟨⟨u', s'⟩, x⟩
    have hfails := hs.fails s (.refl s)
    have hinner := hs.inner
    have hkept := s.check_stable scope t
    rw [hx] at hfails hinner hkept
    cases hfails
    obtain ⟨hbare, hearlier, hlater⟩ := hpassed.left
    have hfill := hpassed.check_fill hx
    rw [buildAndCheck_of_thread_error h hentry hfill]
    refine ⟨hole₂, s', rfl, hbare.trans hhole.bare_eq, hkept.kept.bare, hearlier, ?_⟩
    rw [hlater, hhole.laterSlots_eq, show s'.innerSlots = _ from hinner]
    exact Hole.laterSlots_empty hp hsplit
  · rintro c rfl
    refine Call.reports_of_check ?_
    have hc := hs.fails _ .call
    rw [Stmt.check] at hc
    exact hc

/-- The passes over declarations and bodies stop at the first error. Let a program with empty slots
fail in one of them. Either a declaration cannot be entered; or all can, and there is no entry
point; or all declarations are correct, and a statement fails. The error at a declaration does not
depend on the declarations behind it or on any body, and the error in a statement does not depend on
anything behind it. In the latter case, everything before the statement has been given its types,
and nothing behind it. -/
theorem buildAndCheck_firstError {o : Options} {p : Program} (hp : p.isFresh = true)
    {e : Located SemanticError} (h : (buildAndCheck o p).answer = .error (.error e)) :
    (∃ before d after, o.StopsAtDeclaration p e before d after) ∨
      ((∃ x as, p.entered = ⟨x, .ok as⟩) ∧ checkEntry o.entry p = .error (.error e)) ∨
      ∃ hole s scope t, o.StopsAtStatement p e hole s scope t := by
  rcases buildAndCheck_error_cases h with ⟨x, hx⟩ | ⟨t₀, ds, as, hds, herror⟩
  · exact .inl (Program.stopsAtDeclaration hx)
  · rcases herror with hentry | ⟨hentry, u, ds', hbodies⟩
    · exact .inr (.inl ⟨⟨_, as, hds⟩, hentry⟩)
    · exact .inr (.inr (Program.stopsAtStatement hp hds hentry hbodies))

section
open Build

/-- A program with an error in the middle of a body, and with others behind it. -/
def miscounted : Program := program [
  procDecl "show" [param "i" intType] [] [call "printi" [var (named "i")]],
  procDecl "main" [] [varDecl "i" intType] [
    assign (named "i") (int 1),
    ifElse (binary (.compare .lst) (var (named "i")) (int 10))
      (compound [call "show" [var (named "i")], call "show" [int 1, int 2], call "missing" []])
      (call "missing" []),
    assign (named "j") (int 2)]]

/-- Of the errors of the program, the first one is reported. -/
theorem buildAndCheck_firstError_miscounted : miscounted.isFresh = true ∧
    (buildAndCheck {} miscounted).answer = .error (.error ⟨{}, .tooManyArguments "show"⟩) ∧
    ∃ hole s scope t, Options.StopsAtStatement {} miscounted ⟨{}, .tooManyArguments "show"⟩
      hole s scope t := by
  have hp : miscounted.isFresh = true := by decide +kernel
  have hentered : (match (enterDeclarations "main" miscounted).answer with
      | .ok _ => true
      | .error _ => false) = true := by decide +kernel
  have h : (buildAndCheck {} miscounted).answer =
      .error (.error ⟨{}, .tooManyArguments "show"⟩) := eq_error_of_decide (by decide +kernel)
  refine ⟨hp, h, ?_⟩
  rcases buildAndCheck_firstError hp h with ⟨before, d, after, hd⟩ | ⟨⟨x, as, hx⟩, hentry⟩ | hs
  · obtain ⟨x, hx⟩ := hd.entered
    have hnot : enterDeclarations "main" miscounted = _ := enterDeclarations_of_error hx "main"
    rw [hnot] at hentered
    cases hentered
  · have hnot : enterDeclarations "main" miscounted = _ := enterDeclarations_of_ok hx "main"
    rw [hnot, hentry] at hentered
    cases hentered
  · exact hs

end

end Spl
