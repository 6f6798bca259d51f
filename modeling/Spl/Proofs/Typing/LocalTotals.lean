import Spl.Proofs.Typing.Accepted

/-!
# Totals of local variables

Entering the local variables of a procedure adds up their sizes, and checks after each of them that
the total still leaves room for the linkage. The check of bodies does not change these variables.

* `LocalsChecked`: the local variables have been entered, and their total has passed the checks.
* `LocalsChecked.total_eq`: the total is exact.
* `buildAndCheck_localsChecked`: the totals of an accepted program.
-/

namespace Spl

open SymbolTable

/-- The local variables `bs` of a procedure have been entered as `bs'`, and the total of their
sizes that has passed the checks is `total`. -/
def LocalsChecked (procedure : String) (bs bs' : List (Binding TypeExpr)) (total : Word) : Prop :=
  ∃ scope t t' us,
    Visit.thread (enterLocal procedure scope) (t, 0) bs = ⟨((t', total), bs'), .ok us⟩

/-- A resolved type expression holds its type. -/
theorem TypeExpr.resolve_slot (t : SymbolTable) (scope : ScopeId) (e : TypeExpr) :
    (e.resolve t scope).Meets True fun e' ty => e'.slot.type? = some ty := by
  cases e with
  | named p name slot =>
    unfold resolve
    exact conclude_meets (.inr trivial) ((Meets.of_true _).mono fun _ _ => rfl)
  | array p size base slot =>
    unfold resolve
    refine Visit.Meets.andThen (Q := fun _ _ => True) (Meets.of_true _) fun _ _ _ => ?_
    exact conclude_meets (.inr trivial) ((Meets.of_true _).mono fun _ _ => rfl)
  | record p fields slot =>
    unfold resolve
    cases checkFieldNames [] fields with
    | error f => exact Meets.of_failure f
    | ok _ =>
      refine Visit.Meets.andThen (Q := fun _ _ => True) (Meets.of_true _) fun _ _ _ => ?_
      exact conclude_meets (.inr trivial) ((Meets.of_true _).mono fun _ _ => rfl)

theorem addLocalSize_sum (procedure : String) (p : Position) (before size : Word) :
    Meets True (fun total => before.sum size = .ok total)
      (addLocalSize procedure p before size) := by
  unfold addLocalSize
  cases hs : before.sum size with
  | error f => trivial
  | ok total =>
    dsimp only
    cases total.sum linkageBytes with
    | error f => trivial
    | ok w => rfl

/-- Entering a local variable adds its size to the total. -/
theorem enterLocal_total (procedure : String) (scope : ScopeId) (t : SymbolTable) (before : Word)
    (b : Binding TypeExpr) :
    (enterLocal procedure scope (t, before) b).Meets True fun v _ => ∃ ty size,
      v.2.type.slot.type? = some ty ∧ ty.byteSize = .ok size ∧ before.sum size = .ok v.1.2 := by
  unfold enterLocal
  refine (b.type.resolve_slot t scope).andThen fun e ty hslot => ?_
  dsimp only
  cases hsize : ty.byteSize with
  | error f => trivial
  | ok size =>
    have he : Meets True (fun s : SymbolTable × Word => before.sum size = .ok s.2)
        (enterNew t scope b.name (.var { type := ty, isReference := false }) b.position
          (.redeclaredAsVariable b.name) >>= fun t' =>
            addLocalSize procedure b.position before size >>= fun total => pure (t', total)) :=
      (Meets.of_true _).bind fun t' _ =>
        (addLocalSize_sum procedure b.position before size).bind fun total htotal => htotal
    split
    · next s hx => exact ⟨ty, size, hslot, hsize, he.of_ok hx⟩
    · next f hx => exact Meets.of_failure f

/-- The total of entered local variables is exact where their types fit. -/
theorem LocalsChecked.total_eq {procedure : String} {bs bs' : List (Binding TypeExpr)}
    {total : Word} (h : LocalsChecked procedure bs bs' total)
    (hfit : ∀ b ∈ bs', ∀ ty, b.type.slot.type? = some ty → ty.Fits) :
    total.toInt = ProcDecl.bytesOf bs' := by
  obtain ⟨scope, t, t', us, h⟩ := h
  have hthread : (Visit.thread (enterLocal procedure scope) (t, 0) bs).Meets True
      fun v _ => (∀ b ∈ v.2, ∀ ty, b.type.slot.type? = some ty → ty.Fits) →
        v.1.2.toInt = (ProcDecl.bytesOf v.2 : Int) := by
    refine Visit.Meets.thread (I := fun (s : SymbolTable × Word) _ done _ =>
      (∀ b ∈ done, ∀ ty, b.type.slot.type? = some ty → ty.Fits) →
        s.2.toInt = (ProcDecl.bytesOf done : Int)) (fun b _ s _ done _ hI => ?_) ?_
    · refine (enterLocal_total procedure scope s.1 s.2 b).mono fun v _ hv hfit => ?_
      obtain ⟨ty, size, hslot, hsize, hsum⟩ := hv
      obtain ⟨n, hn, hn'⟩ := Ty.byteSize_of_fits
        (hfit v.2 (List.mem_append.2 (.inr (.head _))) ty hslot)
      rw [hsize] at hn
      cases hn
      have hbefore := hI fun b hb => hfit b (List.mem_append.2 (.inl hb))
      have hbytes : v.2.type.bytes = ty.bytes := by rw [TypeExpr.bytes, hslot]; rfl
      rw [Word.sum_eq_ok_iff.1 hsum, hbefore, hn', ProcDecl.bytesOf_append, ProcDecl.bytesOf,
        ProcDecl.bytesOf, hbytes]
      omega
    · exact fun _ => rfl
  rw [h] at hthread
  exact hthread hfit

/-! ## Programs -/

theorem enterProcedure_localsChecked (t : SymbolTable) (d : ProcDecl) :
    (enterProcedure t d).Meets True fun d' _ =>
      d'.name = d.name ∧ ∃ total, LocalsChecked d.name d.locals d'.locals total := by
  unfold enterProcedure
  rcases t.newScope global with ⟨scope, t₁⟩
  dsimp only
  refine Visit.Meets.andThen (Q := fun _ _ => True) (Meets.of_true _) fun v vs _ => ?_
  obtain ⟨t₂, ps⟩ := v
  dsimp only
  rcases hv : Visit.thread (enterLocal d.name scope) (t₂, 0) d.locals with ⟨⟨⟨t₃, total⟩, bs⟩, x⟩
  cases x with
  | error f => exact Meets.of_failure f
  | ok us => exact (Meets.of_true _).mono fun _ _ => ⟨rfl, total, scope, t₂, t₃, us, hv⟩

/-- What has been made of procedures: their names are the same, and their local variables have been
entered. -/
def LocalsEntered (ds ds' : List Decl) : Prop :=
  ∀ d' ∈ ds'.filterMap Decl.procedure?, ∃ d ∈ ds.filterMap Decl.procedure?, d'.name = d.name ∧
    ∃ total, LocalsChecked d.name d.locals d'.locals total

theorem LocalsEntered.append {ds ds' es es' : List Decl} (h : LocalsEntered ds ds')
    (h' : LocalsEntered es es') : LocalsEntered (ds ++ es) (ds' ++ es') := by
  intro d' hd'
  rw [List.filterMap_append] at hd' ⊢
  rcases List.mem_append.1 hd' with hd' | hd'
  · obtain ⟨d, hd, hl⟩ := h d' hd'
    exact ⟨d, List.mem_append.2 (.inl hd), hl⟩
  · obtain ⟨d, hd, hl⟩ := h' d' hd'
    exact ⟨d, List.mem_append.2 (.inr hd), hl⟩

theorem enterDeclaration_localsEntered (t : SymbolTable) (d : Decl) :
    (enterDeclaration t d).Meets True fun v _ => LocalsEntered [d] [v.2] := by
  unfold enterDeclaration
  cases d with
  | type d =>
    refine Visit.Meets.andThen (Q := fun d' _ => d'.procedure? = none)
      (.mapTree ((Meets.of_true _).mono fun _ _ => rfl)) fun d' t' h d'' hd'' => ?_
    obtain ⟨e, he, hd⟩ := List.mem_filterMap.1 hd''
    have hnone : e.procedure? = none := List.mem_singleton.1 he ▸ h
    rw [hnone] at hd
    cases hd
  | procedure d =>
    refine Visit.Meets.andThen (Q := fun d' _ => LocalsEntered [.procedure d] [d'])
      (.mapTree ((enterProcedure_localsChecked t d).mono fun q _ hq d' hd' => ?_))
      fun _ _ h => h
    rw [List.mem_singleton.1 hd']
    exact ⟨d, .head _, hq⟩

theorem enterDeclarations_localsEntered (entry : String) (p : Program) :
    (enterDeclarations entry p).Meets True fun q _ =>
      LocalsEntered p.declarations q.declarations := by
  unfold enterDeclarations
  refine Visit.Meets.andThen (Visit.Meets.thread
    (I := fun _ seen done _ => LocalsEntered seen done) (fun d _ t seen done _ hI => ?_)
    fun _ h => nomatch h) fun v _ h => ?_
  · exact (enterDeclaration_localsEntered t d).mono fun v _ h => hI.append h
  · exact (Meets.of_true _).mono fun _ _ => h

/-- The check of bodies keeps everything but the bodies. -/
theorem checkBodies_heads (t : SymbolTable) (p : Program) :
    (checkBodies t p).tree.2.heads = p.heads := by
  refine Visit.map_procedures_thread (f := ProcDecl.head) (fun t d => ?_) t p.declarations
  cases d with
  | type d => rfl
  | procedure d =>
    unfold Decl.checkBody
    dsimp only
    cases t.procedure? d.name with
    | none => rfl
    | some P => rfl

/-- The local variables of every procedure of an accepted program have been entered, and their
totals have passed the checks. -/
theorem buildAndCheck_localsChecked (o : Options) (p : Program) :
    (buildAndCheck o p).Meets True fun q _ => ∀ d' ∈ q.procedures, ∃ d ∈ p.procedures,
      d'.name = d.name ∧ ∃ total, LocalsChecked d.name d.locals d'.locals total := by
  unfold buildAndCheck
  refine (enterDeclarations_localsEntered o.entry p).andThen fun q t h => ?_
  refine (Meets.of_true _).mono fun _ _ d' hd' => ?_
  have hm : d'.head ∈ q.heads := by
    rw [← checkBodies_heads t q]
    exact List.mem_map_of_mem hd'
  obtain ⟨d₁, hd₁, heq⟩ := List.mem_map.1 hm
  obtain ⟨d, hd, hn, total, hl⟩ := h d₁ hd₁
  rw [← d₁.head_name, heq] at hn
  rw [← d₁.head_locals, heq] at hl
  exact ⟨d, hd, hn, total, hl⟩

end Spl
