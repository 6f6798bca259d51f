import Spl.Proofs.Machine.Values

/-!
# Runs of the code of statements

The code of a statement without calls stops exactly as the statement traps, and leads to the code
behind it exactly if the statement finishes, with the same memory.

* `Stmt.Exec.leads`: what a statement does, its code does, by induction on the execution.
* `Stmt.Code.passes`: a run of its code executes the statement, by induction on the steps.
* `Stmt.Code.runs_iff`: both, for the code of a statement alone.
-/

namespace Spl

open Machine

/-- How a run of the code of a statement alone ends, and in which memory. -/
def Ending.halt? : Ending → Option (Halt × Memory)
  | .finished m => some (.finished, m)
  | .trapped x m => x.halt?.map (·, m)

/-- A run that stops as a statement traps, in the same memory. -/
def TrapsAs (r : Ending) (h : Halt) (σ : State) : Prop :=
  ∃ x, r = .trapped x σ.memory ∧ x.halt? = some h

/-- A statement that finishes has led to the code `k`, in the same memory, and nothing has changed
that is spared. -/
structure Completes (s : RegisterStack) (σ : State) (r : Ending) (k : List Line) (c : Config) :
    Prop where
  code : c.code = k
  keeps : σ.Keeps s c.state
  ending : r = .finished c.state.memory

section

variable {div : Word → Word → Option Word} {t : SymbolTable} {a : Addressing} {A : Activation}
  {fp : Word} {m : Memory} {program : List Line} {s : RegisterStack} {σ : State} {Q : Config → Prop}
  {X : Halt → State → Prop} {r : Except Trap Word} {v : Word} {x : Trap} {k target : List Line}
  {c : Config}

/-! ## Known evaluations -/

namespace Machine.Leads

theorem of_ok (hl : Leads div program (Yields s σ m r k) (StopsAs r m) c) (hr : r = .ok v)
    (h : ∀ σ', σ'.memory = m → σ.Keeps s σ' → σ'.read s.current = v →
      Leads div program Q X ⟨k, σ'⟩) : Leads div program Q X c := by
  refine hl.bind ?_ ?_
  · intro c h
    obtain ⟨_, σ'⟩ := c
    obtain ⟨rfl, hm, hk, hv⟩ := h
    rw [hr] at hv
    cases hv
    exact h σ' hm hk rfl
  · intro _ _ h
    obtain ⟨x, hx, -⟩ := h
    rw [hr] at hx
    cases hx

theorem of_error {Q' : Config → Prop} (hl : Leads div program Q' (StopsAs r m) c)
    (hr : r = .error x) (hQ : ∀ c, Q' c → ∃ v, r = .ok v) :
    Leads div program Q (TrapsAs (.trapped x m)) c := by
  refine hl.bind ?_ ?_
  · intro c hc
    obtain ⟨v, hv⟩ := hQ c hc
    rw [hr] at hv
    cases hv
  · intro h σ hs
    obtain ⟨y, hy, hh, rfl⟩ := hs
    rw [hr] at hy
    cases hy
    exact ⟨x, rfl, hh⟩

theorem of_true (hl : Leads div program (Chooses s σ m r k target) (StopsAs r m) c)
    (hr : r = .ok v) (hv : v ≠ 0)
    (h : ∀ σ', σ'.memory = m → σ.Keeps s σ' → Leads div program Q X ⟨k, σ'⟩) :
    Leads div program Q X c := by
  refine hl.bind ?_ ?_
  · intro c h
    obtain ⟨_, σ'⟩ := c
    rcases h with ⟨hm, hk, ⟨_, -, -, rfl⟩ | ⟨h0, -⟩⟩
    · exact h σ' hm hk
    · rw [hr] at h0
      cases h0
      exact absurd rfl hv
  · intro _ _ h
    obtain ⟨x, hx, -⟩ := h
    rw [hr] at hx
    cases hx

theorem of_false (hl : Leads div program (Chooses s σ m r k target) (StopsAs r m) c)
    (hr : r = .ok 0)
    (h : ∀ σ', σ'.memory = m → σ.Keeps s σ' → Leads div program Q X ⟨target, σ'⟩) :
    Leads div program Q X c := by
  refine hl.bind ?_ ?_
  · intro c h
    obtain ⟨_, σ'⟩ := c
    rcases h with ⟨hm, hk, ⟨v, hv, hr', -⟩ | ⟨-, rfl⟩⟩
    · rw [hr] at hr'
      cases hr'
      exact absurd rfl hv
    · exact h σ' hm hk
  · intro _ _ h
    obtain ⟨x, hx, -⟩ := h
    rw [hr] at hx
    cases hx

end Machine.Leads

theorem Yields.exists_ok (h : Yields s σ m r k c) : ∃ v, r = .ok v := ⟨_, h.value⟩

theorem Chooses.exists_ok (h : Chooses s σ m r k target c) : ∃ v, r = .ok v := by
  rcases h.value with ⟨v, -, hv, -⟩ | ⟨hv, -⟩
  · exact ⟨v, hv⟩
  · exact ⟨0, hv⟩

theorem Completes.of_keeps {σ' : State} {r : Ending} (h : Completes s σ' r k c)
    (hk : σ.Keeps s σ') : Completes s σ r k c := ⟨h.code, hk.trans h.keeps, h.ending⟩

theorem Completes.label {σ' : State} {r : Ending} {l : String}
    (h : Completes s σ' r (plain (.label l) :: k) c) (hk : σ.Keeps s σ') :
    Leads div program (Completes s σ r k) X c := by
  obtain ⟨_, σ''⟩ := c
  obtain ⟨rfl, hk', hr⟩ := h
  exact .label (.here ⟨rfl, hk.trans hk', hr⟩)

theorem Completes.jump {σ' : State} {r : Ending} {l : String}
    (h : Completes s σ' r (plain (.jump l) :: target) c) (hk : σ.Keeps s σ')
    (hl : codeFrom l program = some (plain (.label l) :: k)) :
    Leads div program (Completes s σ r k) X c := by
  obtain ⟨_, σ''⟩ := c
  obtain ⟨rfl, hk', hr⟩ := h
  exact .jump hl (.label (.here ⟨rfl, hk.trans hk', hr⟩))

/-! ## Known endings -/

namespace Machine.Leads

theorem of_finished
    (hl : Leads div program (Completes s σ (.finished m) k) (TrapsAs (.finished m)) c)
    (h : ∀ σ', σ'.memory = m → σ.Keeps s σ' → Leads div program Q X ⟨k, σ'⟩) :
    Leads div program Q X c := by
  refine hl.bind ?_ ?_
  · intro c h'
    obtain ⟨_, σ'⟩ := c
    obtain ⟨rfl, hk, hm⟩ := h'
    exact h σ' (Ending.finished.inj hm).symm hk
  · intro _ _ h
    obtain ⟨_, hx, -⟩ := h
    cases hx

theorem of_trapped (hl : Leads div program (Completes s σ (.trapped x m) k) X c) :
    Leads div program Q X c := by
  refine hl.bind ?_ fun _ _ hx => hx
  intro _ h
  obtain ⟨-, -, hend⟩ := h
  cases hend

end Machine.Leads

/-! ## Where the parts of a form stand -/

namespace Linked

variable {test body first second : List Line} {l done : String}

theorem ifThen (hL : Linked program) (hp : test ++ (body ++ plain (.label l) :: k) <:+ program) :
    body ++ plain (.label l) :: k <:+ program ∧
      codeFrom l program = some (plain (.label l) :: k) := by
  have hbody := (List.suffix_append ..).trans hp
  exact ⟨hbody, codeFrom_eq hL.nodup ((List.suffix_append ..).trans hbody)⟩

theorem ifElse (hL : Linked program)
    (hp : test ++ (first ++ plain (.jump done) :: plain (.label l) ::
      (second ++ plain (.label done) :: k)) <:+ program) :
    first ++ plain (.jump done) :: plain (.label l) :: (second ++ plain (.label done) :: k) <:+
        program ∧
      second ++ plain (.label done) :: k <:+ program ∧
      codeFrom l program = some (plain (.label l) :: (second ++ plain (.label done) :: k)) ∧
      codeFrom done program = some (plain (.label done) :: k) := by
  have hfirst := (List.suffix_append ..).trans hp
  have hl := (List.suffix_cons ..).trans ((List.suffix_append ..).trans hfirst)
  have hsecond := (List.suffix_cons ..).trans hl
  exact ⟨hfirst, hsecond, codeFrom_eq hL.nodup hl,
    codeFrom_eq hL.nodup ((List.suffix_append ..).trans hsecond)⟩

theorem whileDo (hL : Linked program)
    (hp : plain (.label l) :: (test ++ (body ++ plain (.jump l) :: plain (.label done) :: k)) <:+
      program) :
    test ++ (body ++ plain (.jump l) :: plain (.label done) :: k) <:+ program ∧
      body ++ plain (.jump l) :: plain (.label done) :: k <:+ program ∧
      codeFrom l program =
        some (plain (.label l) :: (test ++ (body ++ plain (.jump l) :: plain (.label done) :: k))) ∧
      codeFrom done program = some (plain (.label done) :: k) := by
  have htest := (List.suffix_cons ..).trans hp
  have hbody := (List.suffix_append ..).trans htest
  have hdone := (List.suffix_cons ..).trans ((List.suffix_append ..).trans hbody)
  exact ⟨htest, hbody, codeFrom_eq hL.nodup hp, codeFrom_eq hL.nodup hdone⟩

end Linked

end

/-- The empty statement finishes at once. -/
theorem Stmt.exec_of_isEmpty {div : Word → Word → Option Word} {A : Activation} {m : Memory}
    {st : Stmt} (h : st.isEmpty = true) : st.Exec div A m (.finished m) := by
  cases st <;> first | exact .empty | cases h

/-! ## From statements to their code -/

section

variable {div : Word → Word → Option Word} {t : SymbolTable} {a : Addressing} {fp : Word}
  {program : List Line}

mutual

/-- What a statement does, its code does. -/
theorem Stmt.Exec.leads (hL : Linked program) (hE : (t.typeEnv a.scope).Fits)
    (hb : a.base.isFree = false) : ∀ {m : Memory} {st : Stmt} {r : Ending},
    st.Exec div ⟨t, a.scope, fp⟩ m r → ∀ {s : RegisterStack} {n : Nat} {code k : List Line}
    {σ : State}, st.Code t a s n code → st.WellTyped (t.typeEnv a.scope) → code ++ k <:+ program →
    Situated a ⟨t, a.scope, fp⟩ m σ →
    Leads div program (Completes s σ r k) (TrapsAs r) ⟨code ++ k, σ⟩
  | m, _, _, .assign hx hv, s, _, _, k, σ, .assign hs hd he, hty, hp, hσ => by
    cases hty with
    | assign htd hte _ =>
      simp only [List.append_assoc] at hp ⊢
      refine (hd.leads hL hE hb htd hp hσ).of_ok hx fun σ₁ hm₁ hk₁ hx₁ => ?_
      refine (he.leads hL hE hb hte ((List.suffix_append ..).trans hp)
        (hσ.keeps hb hk₁ hm₁)).of_ok hv fun σ₂ hm₂ hk₂ hv₂ => ?_
      refine .store (.here ⟨rfl, hk₁.trans (hk₂.of_push? hs), ?_⟩)
      rw [State.memory_store, hk₂ _ (RegisterStack.spares_current hs), hx₁, hv₂, hm₂,
        Int32.add_zero]
  | m, _, _, .assignTarget hx, s, _, _, k, σ, .assign hs hd he, hty, hp, hσ => by
    cases hty with
    | assign htd hte _ =>
      simp only [List.append_assoc] at hp ⊢
      exact (hd.leads hL hE hb htd hp hσ).of_error hx fun _ => Yields.exists_ok
  | m, _, _, .assignValue hx hv, s, _, _, k, σ, .assign hs hd he, hty, hp, hσ => by
    cases hty with
    | assign htd hte _ =>
      simp only [List.append_assoc] at hp ⊢
      refine (hd.leads hL hE hb htd hp hσ).of_ok hx fun σ₁ hm₁ hk₁ hx₁ => ?_
      exact (he.leads hL hE hb hte ((List.suffix_append ..).trans hp)
        (hσ.keeps hb hk₁ hm₁)).of_error hv fun _ => Yields.exists_ok
  | m, _, _, .ifCondition hx, s, n, _, k, σ, hcode, hty, hp, hσ => by
    cases hty with
    | ifElse hte _ _ =>
      cases hcode with
      | ifThen _ he h₁ =>
        simp only [List.append_assoc] at hp ⊢
        obtain ⟨-, hend⟩ := hL.ifThen hp
        exact (he.leads hL hE hb hte hp hend hσ).of_error hx fun _ => Chooses.exists_ok
      | ifElse _ he h₁ h₂ _ =>
        simp only [List.append_assoc] at hp ⊢
        obtain ⟨-, -, hotherwise, -⟩ := hL.ifElse hp
        exact (he.leads hL hE hb hte hp hotherwise hσ).of_error hx fun _ => Chooses.exists_ok
  | m, _, _, .ifTrue hv hne h, s, n, _, k, σ, hcode, hty, hp, hσ => by
    cases hty with
    | ifElse hte ht₁ _ =>
      cases hcode with
      | ifThen _ he h₁ =>
        simp only [List.append_assoc] at hp ⊢
        obtain ⟨hp₁, hend⟩ := hL.ifThen hp
        refine (he.leads hL hE hb hte hp hend hσ).of_true hv hne fun σ₁ hm₁ hk₁ => ?_
        exact (h.leads hL hE hb h₁ ht₁ hp₁ (hσ.keeps hb hk₁ hm₁)).bind (fun _ hc => hc.label hk₁)
          fun _ _ hx => hx
      | ifElse _ he h₁ h₂ hdone =>
        subst hdone
        simp only [List.append_assoc] at hp ⊢
        obtain ⟨hp₁, -, hotherwise, hdone⟩ := hL.ifElse hp
        refine (he.leads hL hE hb hte hp hotherwise hσ).of_true hv hne fun σ₁ hm₁ hk₁ => ?_
        exact (h.leads hL hE hb h₁ ht₁ hp₁ (hσ.keeps hb hk₁ hm₁)).bind
          (fun _ hc => hc.jump hk₁ hdone) fun _ _ hx => hx
  | m, _, _, .ifFalse hv h, s, n, _, k, σ, hcode, hty, hp, hσ => by
    cases hty with
    | @ifElse _ _ _ s₂ hte _ ht₂ =>
      cases hcode with
      | ifThen hempty he h₁ =>
        simp only [List.append_assoc] at hp ⊢
        obtain ⟨hp₁, hend⟩ := hL.ifThen hp
        refine (he.leads hL hE hb hte hp hend hσ).of_false hv fun σ₁ hm₁ hk₁ => ?_
        cases h with
        | empty => exact .label (.here ⟨rfl, hk₁, by rw [hm₁]⟩)
        | _ => cases hempty
      | ifElse _ he h₁ h₂ hdone =>
        subst hdone
        simp only [List.append_assoc] at hp ⊢
        obtain ⟨-, hp₂, hotherwise, -⟩ := hL.ifElse hp
        refine (he.leads hL hE hb hte hp hotherwise hσ).of_false hv fun σ₁ hm₁ hk₁ => ?_
        have helse := h.leads hL hE hb h₂ ht₂ hp₂ (hσ.keeps hb hk₁ hm₁)
        exact .label (helse.bind (fun _ hc => hc.label hk₁) fun _ _ hx => hx)
  | m, _, _, .whileCondition hx, s, n, _, k, σ, .whileDo he h₁, hty, hp, hσ => by
    cases hty with
    | whileDo hte htb =>
      simp only [List.cons_append, List.append_assoc] at hp ⊢
      obtain ⟨hp₁, -, -, hdone⟩ := hL.whileDo hp
      exact .label ((he.leads hL hE hb hte hp₁ hdone hσ).of_error hx fun _ => Chooses.exists_ok)
  | m, _, _, .whileDone hv, s, n, _, k, σ, .whileDo he h₁, hty, hp, hσ => by
    cases hty with
    | whileDo hte htb =>
      simp only [List.cons_append, List.append_assoc] at hp ⊢
      obtain ⟨hp₁, -, -, hdone⟩ := hL.whileDo hp
      refine .label ((he.leads hL hE hb hte hp₁ hdone hσ).of_false hv fun σ₁ hm₁ hk₁ => ?_)
      exact .label (.here ⟨rfl, hk₁, by rw [hm₁]⟩)
  | m, _, _, .whileStop hv hne h, s, n, _, k, σ, .whileDo he h₁, hty, hp, hσ => by
    cases hty with
    | whileDo hte htb =>
      simp only [List.cons_append, List.append_assoc] at hp ⊢
      obtain ⟨hp₁, hp₂, hstart, hdone⟩ := hL.whileDo hp
      refine .label ((he.leads hL hE hb hte hp₁ hdone hσ).of_true hv hne fun σ₁ hm₁ hk₁ => ?_)
      exact (h.leads hL hE hb h₁ htb hp₂ (hσ.keeps hb hk₁ hm₁)).of_trapped
  | m, _, _, .whileNext hv hne h hw, s, n, _, k, σ, .whileDo he h₁, hty, hp, hσ => by
    have hp₀ := hp
    cases hty with
    | whileDo hte htb =>
      simp only [List.cons_append, List.append_assoc] at hp ⊢
      obtain ⟨hp₁, hp₂, hstart, hdone⟩ := hL.whileDo hp
      refine .label ((he.leads hL hE hb hte hp₁ hdone hσ).of_true hv hne fun σ₁ hm₁ hk₁ => ?_)
      refine (h.leads hL hE hb h₁ htb hp₂ (hσ.keeps hb hk₁ hm₁)).of_finished fun σ₂ hm₂ hk₂ => ?_
      have hk := hk₁.trans hk₂
      have hagain := hw.leads hL hE hb (.whileDo he h₁) (.whileDo hte htb) hp₀ (hσ.keeps hb hk hm₂)
      simp only [List.cons_append, List.append_assoc] at hagain
      exact .jump hstart (hagain.mono (fun _ hc => hc.of_keeps hk) fun _ _ hx => hx)
  | m, _, _, .compound hss, s, n, _, k, σ, .compound hcs, hty, hp, hσ => by
    cases hty with
    | compound hty => exact hss.leads hL hE hb hcs hty hp hσ
  | m, _, _, .empty, s, n, _, k, σ, .empty, hty, hp, hσ =>
    .here ⟨rfl, .refl s σ, by rw [hσ.memory]⟩

theorem Stmt.ExecOf.leads (hL : Linked program) (hE : (t.typeEnv a.scope).Fits)
    (hb : a.base.isFree = false) : ∀ {m : Memory} {ss : List Stmt} {r : Ending},
    Stmt.ExecOf div ⟨t, a.scope, fp⟩ m ss r → ∀ {s : RegisterStack} {n : Nat} {code k : List Line}
    {σ : State}, Stmt.CodeOf t a s n ss code → (∀ st ∈ ss, st.WellTyped (t.typeEnv a.scope)) →
    code ++ k <:+ program → Situated a ⟨t, a.scope, fp⟩ m σ →
    Leads div program (Completes s σ r k) (TrapsAs r) ⟨code ++ k, σ⟩
  | m, _, _, .nil, s, _, _, k, σ, .nil, _, _, hσ => .here ⟨rfl, .refl s σ, by rw [hσ.memory]⟩
  | m, _, _, .stop h, s, _, _, k, σ, .cons hc hcs, hty, hp, hσ => by
    rw [List.append_assoc] at hp ⊢
    exact (h.leads hL hE hb hc (hty _ (.head _)) hp hσ).of_trapped
  | m, _, _, .cons h hs, s, _, _, k, σ, .cons hc hcs, hty, hp, hσ => by
    rw [List.append_assoc] at hp ⊢
    refine (h.leads hL hE hb hc (hty _ (.head _)) hp hσ).of_finished fun σ₁ hm₁ hk₁ => ?_
    have hrest := hs.leads hL hE hb hcs (fun st hst => hty st (.tail _ hst))
      ((List.suffix_append ..).trans hp) (hσ.keeps hb hk₁ hm₁)
    exact hrest.mono (fun _ hc => hc.of_keeps hk₁) fun _ _ hx => hx

end

/-! ## From the code of statements to the statements -/

/-- A run that executes a form first, whose endings are those of `E`: it stops in a trap of the
form, or the form finishes and the run goes on behind it. -/
def Passes (div : Word → Word → Option Word) (program : List Line) (E : Ending → Prop)
    (s : RegisterStack) (σ : State) (k : List Line) (N : Nat) (h : Halt) (σ' : State) : Prop :=
  (∃ x, E (.trapped x σ'.memory) ∧ x.halt? = some h) ∨
    ∃ N' σ₁, N' ≤ N ∧ E (.finished σ₁.memory) ∧ σ.Keeps s σ₁ ∧ Runs div program N' ⟨k, σ₁⟩ h σ'

section
variable {E E' : Ending → Prop} {s : RegisterStack} {σ σ₁ σ' : State} {k k' : List Line}
  {N N' : Nat} {h : Halt}

theorem Passes.of_keeps (hp : Passes div program E s σ₁ k N' h σ') (hk : σ.Keeps s σ₁)
    (hN : N' ≤ N) (hE : ∀ r, E r → E' r) : Passes div program E' s σ k N h σ' := by
  rcases hp with ⟨x, hx, hh⟩ | ⟨M, σ₂, hM, hm, hk', hr⟩
  · exact .inl ⟨x, hE _ hx, hh⟩
  · exact .inr ⟨M, σ₂, Nat.le_trans hM hN, hE _ hm, hk.trans hk', hr⟩

/-- A line behind the form that only goes on. -/
theorem Passes.step (hp : Passes div program E s σ k N h σ')
    (hs : ∀ σ, step div program ⟨k, σ⟩ = .goes ⟨k', σ⟩) : Passes div program E s σ k' N h σ' := by
  refine hp.imp_right ?_
  intro h
  obtain ⟨M, σ₂, hM, hm, hk, hr⟩ := h
  obtain ⟨M', rfl, hr'⟩ := hr.tail (hs σ₂)
  exact ⟨M', σ₂, Nat.le_of_succ_le hM, hm, hk, hr'⟩

theorem Machine.step_jump {l : String} {code : List Line} (hc : codeFrom l program = some code)
    (σ : State) : step div program ⟨plain (.jump l) :: k, σ⟩ = .goes ⟨code, σ⟩ := by
  rw [Machine.step, plain, execute, goto, hc]

end

/-- Runs of less than `N` steps from the code of a statement without calls execute it. -/
def PassesBelow (div : Word → Word → Option Word) (t : SymbolTable) (a : Addressing) (fp : Word)
    (program : List Line) (N : Nat) : Prop :=
  ∀ (M : Nat) (st : Stmt) (s : RegisterStack) (n : Nat) (code k : List Line) (m : Memory)
    (σ : State) (h : Halt) (σ' : State), M < N → st.Code t a s n code →
    st.WellTyped (t.typeEnv a.scope) → st.calls = [] → code ++ k <:+ program →
    Situated a ⟨t, a.scope, fp⟩ m σ → Runs div program M ⟨code ++ k, σ⟩ h σ' →
    Passes div program (st.Exec div ⟨t, a.scope, fp⟩ m) s σ k M h σ'

mutual

theorem Stmt.Code.passes (hL : Linked program) (hE : (t.typeEnv a.scope).Fits)
    (hb : a.base.isFree = false) {N : Nat} (hN : PassesBelow div t a fp program N) :
    ∀ {s : RegisterStack} {n : Nat} {st : Stmt} {code : List Line}, st.Code t a s n code →
    ∀ {k : List Line} {m : Memory} {σ : State} {M : Nat} {h : Halt} {σ' : State}, M ≤ N →
    st.WellTyped (t.typeEnv a.scope) → st.calls = [] → code ++ k <:+ program →
    Situated a ⟨t, a.scope, fp⟩ m σ → Runs div program M ⟨code ++ k, σ⟩ h σ' →
    Passes div program (st.Exec div ⟨t, a.scope, fp⟩ m) s σ k M h σ'
  | s, n, _, _, .assign hs hd he, k, m, σ, M, h, σ', hM, hty, hcalls, hp, hσ, hr => by
    cases hty with
    | assign htd hte _ =>
      simp only [List.append_assoc] at hp hr
      rcases (hd.leads hL hE hb htd hp hσ).runs hr with
        ⟨M₁, ⟨_, σ₁⟩, hM₁, ⟨rfl, hm₁, hk₁, hx⟩, hr₁⟩ | ⟨x, hx, hh, hm'⟩
      · rcases (he.leads hL hE hb hte ((List.suffix_append ..).trans hp)
          (hσ.keeps hb hk₁ hm₁)).runs hr₁ with
          ⟨M₂, ⟨_, σ₂⟩, hM₂, ⟨rfl, hm₂, hk₂, hv⟩, hr₂⟩ | ⟨x, hv, hh, hm'⟩
        · obtain ⟨M₃, rfl, hr₃⟩ := hr₂.tail rfl
          refine .inr ⟨M₃, _, by omega, ?_, ?_, hr₃⟩
          · rw [State.memory_store, hm₂, hk₂ _ (RegisterStack.spares_current hs), Int32.add_zero]
            exact .assign hx hv
          · exact hk₁.trans (hk₂.of_push? hs)
        · exact .inl ⟨x, by rw [hm']; exact .assignValue hx hv, hh⟩
      · exact .inl ⟨x, by rw [hm']; exact .assignTarget hx, hh⟩
  | s, n, _, _, .ifThen hempty he h₁, k, m, σ, M, h, σ', hM, hty, hcalls, hp, hσ, hr => by
    rw [Stmt.calls, List.append_eq_nil_iff] at hcalls
    cases hty with
    | ifElse hte ht₁ _ =>
      simp only [List.append_assoc] at hp hr
      obtain ⟨hp₁, hend⟩ := hL.ifThen hp
      rcases (he.leads hL hE hb hte hp hend hσ).runs hr with
        ⟨M₁, ⟨_, σ₁⟩, hM₁, ⟨hm₁, hk₁, ⟨v, hne, hv, rfl⟩ | ⟨hv, rfl⟩⟩, hr₁⟩ | ⟨x, hx, hh, hm'⟩
      · have hpass := h₁.passes hL hE hb hN (Nat.le_trans hM₁ hM) ht₁ hcalls.1 hp₁
          (hσ.keeps hb hk₁ hm₁) hr₁
        exact (hpass.step fun _ => rfl).of_keeps hk₁ hM₁ fun _ => .ifTrue hv hne
      · obtain ⟨M₂, rfl, hr₂⟩ := hr₁.tail rfl
        refine .inr ⟨M₂, σ₁, by omega, .ifFalse hv ?_, hk₁, hr₂⟩
        rw [hm₁]
        exact Stmt.exec_of_isEmpty hempty
      · exact .inl ⟨x, by rw [hm']; exact .ifCondition hx, hh⟩
  | s, n, _, _, .ifElse hempty he h₁ h₂ hdone, k, m, σ, M, h, σ', hM, hty, hcalls, hp, hσ, hr => by
    subst hdone
    rw [Stmt.calls, List.append_eq_nil_iff] at hcalls
    cases hty with
    | ifElse hte ht₁ ht₂ =>
      simp only [List.append_assoc] at hp hr
      obtain ⟨hp₁, hp₂, hotherwise, hdone⟩ := hL.ifElse hp
      rcases (he.leads hL hE hb hte hp hotherwise hσ).runs hr with
        ⟨M₁, ⟨_, σ₁⟩, hM₁, ⟨hm₁, hk₁, ⟨v, hne, hv, rfl⟩ | ⟨hv, rfl⟩⟩, hr₁⟩ | ⟨x, hx, hh, hm'⟩
      · have hpass := h₁.passes hL hE hb hN (Nat.le_trans hM₁ hM) ht₁ hcalls.1 hp₁
          (hσ.keeps hb hk₁ hm₁) hr₁
        exact ((hpass.step (step_jump hdone)).step fun _ => rfl).of_keeps hk₁ hM₁
          fun _ => .ifTrue hv hne
      · obtain ⟨M₂, rfl, hr₂⟩ := hr₁.tail rfl
        have hpass := h₂.passes hL hE hb hN (by omega) ht₂ hcalls.2 hp₂ (hσ.keeps hb hk₁ hm₁) hr₂
        exact (hpass.step fun _ => rfl).of_keeps hk₁ (by omega) fun _ => .ifFalse hv
      · exact .inl ⟨x, by rw [hm']; exact .ifCondition hx, hh⟩
  | s, n, _, _, .whileDo he h₁, k, m, σ, M, h, σ', hM, hty, hcalls, hp, hσ, hr => by
    have hp₀ := hp
    cases hty with
    | whileDo hte htb =>
      simp only [List.cons_append, List.append_assoc] at hp hr
      obtain ⟨hp₁, hp₂, hstart, hdone⟩ := hL.whileDo hp
      obtain ⟨M₀, rfl, hr₀⟩ := hr.tail rfl
      rcases (he.leads hL hE hb hte hp₁ hdone hσ).runs hr₀ with
        ⟨M₁, ⟨_, σ₁⟩, hM₁, ⟨hm₁, hk₁, ⟨v, hne, hv, rfl⟩ | ⟨hv, rfl⟩⟩, hr₁⟩ | ⟨x, hx, hh, hm'⟩
      · rcases h₁.passes hL hE hb hN (by omega) htb hcalls hp₂ (hσ.keeps hb hk₁ hm₁) hr₁ with
          ⟨x, hx, hh⟩ | ⟨M₂, σ₂, hM₂, hbody, hk₂, hr₂⟩
        · exact .inl ⟨x, .whileStop hv hne hx, hh⟩
        · obtain ⟨M₃, rfl, hr₃⟩ := hr₂.tail (step_jump hstart _)
          have hk := hk₁.trans hk₂
          have hpass := hN M₃ _ s n _ k _ σ₂ h σ' (by omega) (.whileDo he h₁) (.whileDo hte htb)
            hcalls hp₀ (hσ.keeps hb hk rfl)
            (by simp only [List.cons_append, List.append_assoc]; exact hr₃)
          exact hpass.of_keeps hk (by omega) fun _ => .whileNext hv hne hbody
      · obtain ⟨M₂, rfl, hr₂⟩ := hr₁.tail rfl
        refine .inr ⟨M₂, σ₁, by omega, ?_, hk₁, hr₂⟩
        rw [hm₁]
        exact .whileDone hv
      · exact .inl ⟨x, by rw [hm']; exact .whileCondition hx, hh⟩
  | _, _, _, _, .call _ _, _, _, _, _, _, _, _, _, hcalls, _, _, _ => nomatch hcalls
  | s, n, _, _, .compound hss, k, m, σ, M, h, σ', hM, hty, hcalls, hp, hσ, hr => by
    cases hty with
    | compound hty =>
      exact (hss.passes hL hE hb hN hM hty hcalls hp hσ hr).of_keeps (.refl s σ) (Nat.le_refl M)
        fun _ => .compound
  | s, n, _, _, .empty, k, m, σ, M, h, σ', hM, hty, hcalls, hp, hσ, hr =>
    .inr ⟨M, σ, Nat.le_refl M, by rw [hσ.memory]; exact .empty, .refl s σ, hr⟩

theorem Stmt.CodeOf.passes (hL : Linked program) (hE : (t.typeEnv a.scope).Fits)
    (hb : a.base.isFree = false) {N : Nat} (hN : PassesBelow div t a fp program N) :
    ∀ {s : RegisterStack} {n : Nat} {ss : List Stmt} {code : List Line},
    Stmt.CodeOf t a s n ss code → ∀ {k : List Line} {m : Memory} {σ : State} {M : Nat} {h : Halt}
    {σ' : State}, M ≤ N → (∀ st ∈ ss, st.WellTyped (t.typeEnv a.scope)) → Stmt.callsOf ss = [] →
    code ++ k <:+ program → Situated a ⟨t, a.scope, fp⟩ m σ →
    Runs div program M ⟨code ++ k, σ⟩ h σ' →
    Passes div program (Stmt.ExecOf div ⟨t, a.scope, fp⟩ m ss) s σ k M h σ'
  | s, n, _, _, .nil, k, m, σ, M, h, σ', hM, hty, hcalls, hp, hσ, hr =>
    .inr ⟨M, σ, Nat.le_refl M, by rw [hσ.memory]; exact .nil, .refl s σ, hr⟩
  | s, n, _, _, .cons hc hcs, k, m, σ, M, h, σ', hM, hty, hcalls, hp, hσ, hr => by
    rw [Stmt.callsOf, List.append_eq_nil_iff] at hcalls
    rw [List.append_assoc] at hp hr
    rcases hc.passes hL hE hb hN hM (hty _ (.head _)) hcalls.1 hp hσ hr with
      ⟨x, hx, hh⟩ | ⟨M₁, σ₁, hM₁, hfirst, hk₁, hr₁⟩
    · exact .inl ⟨x, .stop hx, hh⟩
    · have hpass := hcs.passes hL hE hb hN (Nat.le_trans hM₁ hM)
        (fun st hst => hty st (.tail _ hst)) hcalls.2 ((List.suffix_append ..).trans hp)
        (hσ.keeps hb hk₁ rfl) hr₁
      exact hpass.of_keeps hk₁ hM₁ fun _ => .cons hfirst

end

/-- Every run executes the statement first, whatever its length. -/
theorem passesBelow (hL : Linked program) (hE : (t.typeEnv a.scope).Fits)
    (hb : a.base.isFree = false) : ∀ N, PassesBelow div t a fp program N
  | 0 => fun _ _ _ _ _ _ _ _ _ _ hM => absurd hM (Nat.not_lt_zero _)
  | N + 1 => fun _ _ _ _ _ _ _ _ _ _ hM hcode hty hcalls hp hσ hr =>
    hcode.passes hL hE hb (passesBelow hL hE hb N) (Nat.le_of_lt_succ hM) hty hcalls hp hσ hr

/-! ## The code of a statement alone -/

section
variable {s : RegisterStack} {n : Nat} {st : Stmt} {code : List Line} {m : Memory} {σ : State}
  {r : Ending}

/-- What a statement does, the run of its code does, and so it does not fault. -/
theorem Stmt.Code.exists_runs (hcode : st.Code t a s n code) (hL : Linked code)
    (hE : (t.typeEnv a.scope).Fits) (hb : a.base.isFree = false)
    (hty : st.WellTyped (t.typeEnv a.scope)) (hσ : Situated a ⟨t, a.scope, fp⟩ m σ)
    (hr : st.Exec div ⟨t, a.scope, fp⟩ m r) :
    ∃ N h σ', Runs div code N ⟨code, σ⟩ h σ' ∧ r.halt? = some (h, σ'.memory) := by
  have hl := hr.leads hL hE hb (k := []) hcode hty (by simp) hσ
  rw [List.append_nil] at hl
  have hl' : Leads div code (Completes s σ r []) (fun h σ' => r.halt? = some (h, σ'.memory))
      ⟨code, σ⟩ := by
    refine hl.mono (fun _ hc => hc) ?_
    intro h σ' hs
    obtain ⟨x, rfl, hx⟩ := hs
    rw [Ending.halt?, hx]
    rfl
  refine hl'.exists_runs ?_
  intro c h
  obtain ⟨_, σ'⟩ := c
  obtain ⟨rfl, -, hend⟩ := h
  exact ⟨0, .finished, σ', .halt rfl, by rw [hend]; rfl⟩

/-- The code of a statement without calls ends exactly as the statement does. -/
theorem Stmt.Code.runs_iff (hcode : st.Code t a s n code) (hL : Linked code)
    (hE : (t.typeEnv a.scope).Fits) (hb : a.base.isFree = false)
    (hty : st.WellTyped (t.typeEnv a.scope)) (hcalls : st.calls = [])
    (hσ : Situated a ⟨t, a.scope, fp⟩ m σ) (h : Halt) (m' : Memory) :
    (∃ N σ', Runs div code N ⟨code, σ⟩ h σ' ∧ σ'.memory = m') ↔
      ∃ r, st.Exec div ⟨t, a.scope, fp⟩ m r ∧ r.halt? = some (h, m') := by
  constructor
  · intro h
    obtain ⟨N, σ', hr, rfl⟩ := h
    rcases passesBelow hL hE hb (N + 1) N st s n code [] m σ h σ' (Nat.lt_succ_self N) hcode hty
      hcalls (by simp) hσ (by rwa [List.append_nil]) with
      ⟨x, hx, hh⟩ | ⟨N', σ₁, -, hfinished, -, hr'⟩
    · exact ⟨_, hx, by rw [Ending.halt?, hh]; rfl⟩
    · obtain ⟨rfl, rfl⟩ := hr'.end_eq rfl
      exact ⟨_, hfinished, rfl⟩
  · intro h
    obtain ⟨r, hr, hend⟩ := h
    obtain ⟨N, h', σ', hruns, hend'⟩ := hcode.exists_runs hL hE hb hty hσ hr
    rw [hend, Option.some.injEq, Prod.mk.injEq] at hend'
    obtain ⟨rfl, rfl⟩ := hend'
    exact ⟨N, σ', hruns, rfl⟩

end

end

end Spl
