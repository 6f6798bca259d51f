import Spl.Proofs.Machine.Values
import Spl.Proofs.Machine.Frames

/-!
# Runs of the code of calls

The code of a call stores what its arguments pass in the words from the stack pointer upwards, one
word each. The evaluation of an argument comes after the stores of those before it, so it must not
read these words. The called procedure takes its frame below them.

* `argumentPlace`: the words of the arguments.
* `Call.ArgumentsCode.leads`: the code of the arguments.
* `CallEnters`: a call up to the body of the called procedure.
* `Stmt.Code.call_leads`, `EntryCode.finishes`: its two parts.
-/

namespace Spl

open Machine SymbolTable

/-! ## Places of arguments -/

/-- The word of the outgoing area for the argument with the given index. -/
def argumentPlace (stackPointer : Word) (index : Nat) : Word :=
  stackPointer + Int32.ofNat (4 * index)

theorem argumentPlace_injective {sp : Word} {i j : Nat} (hi : 4 * i ≤ Word.maxNat)
    (hj : 4 * j ≤ Word.maxNat) (h : argumentPlace sp i = argumentPlace sp j) : i = j := by
  have heq : Int32.ofNat (4 * i) = Int32.ofNat (4 * j) := (Int32.add_right_inj sp).1 h
  have hint := congrArg Int32.toInt heq
  rw [Word.toInt_ofNat hi, Word.toInt_ofNat hj] at hint
  omega

/-! ## What arguments pass -/

section

variable {div : Word → Word → Option Word} {A : Activation} {m m' : Memory}

theorem Expr.passes_value_iff {e : Expr} {w : Word}
    (h : ∀ x ∈ e.passedReads div A m false, m' x = m x) :
    e.Passes div A m false w ↔ e.eval div A m' = .ok w := by
  have he : e.eval div A m' = e.eval div A m := by
    apply Expr.eval_congr
    cases e <;> exact h
  rw [he]
  constructor
  · intro h
    cases h
    assumption
  · exact .value

theorem Expr.passes_reference_iff {p : Position} {d : Designator} {slot : TypeSlot} {w : Word}
    (h : ∀ x ∈ (Expr.designator p d slot).passedReads div A m true, m' x = m x) :
    (Expr.designator p d slot).Passes div A m true w ↔ d.locate div A m' = .ok w := by
  rw [Designator.locate_congr h]
  constructor
  · intro h
    cases h
    assumption
  · exact .reference

end

/-! ## The code of arguments -/

section

variable (div : Word → Word → Option Word) (A : Activation) (m : Memory)

/-- Arguments from the given index on have been stored, and nothing else in the memory has
changed. -/
structure Stored (s : RegisterStack) (σ : State) (index : Nat) (es : List Expr)
    (vs : List Variable) (k : List Line) (c : Config) : Prop where
  code : c.code = k
  keeps : σ.Keeps s c.state
  words : ∀ (i : Nat) (e : Expr) (v : Variable), es[i]? = some e → vs[i]? = some v →
    e.Passes div A m v.isReference
      (c.state.memory (argumentPlace (σ.read .stackPointer) (index + i)))
  others : ∀ x, (∀ i < es.length, x ≠ argumentPlace (σ.read .stackPointer) (index + i)) →
    c.state.memory x = σ.memory x

/-- A run that stops in a trap, where one of the arguments passes nothing. -/
def StopsInArguments (es : List Expr) (vs : List Variable) (h : Halt) (_ : State) : Prop :=
  (∃ x : Trap, x.halt? = some h) ∧
    ∃ (i : Nat) (e : Expr) (v : Variable), es[i]? = some e ∧ vs[i]? = some v ∧
      ∀ w, ¬e.Passes div A m v.isReference w

/-- Arguments that can be stored from the given index on, in an area of `N` words: they suit their
parameters, which have their places in the area, and their evaluations read no word of it. -/
structure Storable (sp : Word) (N index : Nat) (es : List Expr) (vs : List Variable) : Prop where
  suits : List.Forall₂ (Expr.Suits (A.table.typeEnv A.scope)) es (vs.map Variable.view)
  offsets : ∀ (i : Nat) (v : Variable), vs[i]? = some v →
    v.offset = some (Int32.ofNat (4 * (index + i)))
  fits : index + es.length ≤ N
  room : 4 * N ≤ Word.maxNat
  reads : ∀ (i : Nat) (e : Expr) (v : Variable), es[i]? = some e → vs[i]? = some v →
    ∀ j < N, argumentPlace sp j ∉ e.passedReads div A m v.isReference

/-- The machine has stored arguments: its memory is the given one outside of the outgoing area of
`N` words. -/
structure Preparing (a : Addressing) (sp : Word) (N : Nat) (σ : State) : Prop where
  stackPointer : σ.read .stackPointer = sp
  framePointer : σ.read a.base + a.bias = A.framePointer
  memory : ∀ x, (∀ j < N, x ≠ argumentPlace sp j) → σ.memory x = m x

end

section

variable {div : Word → Word → Option Word} {A : Activation} {m : Memory} {t : SymbolTable}
  {a : Addressing} {program : List Line} {s : RegisterStack} {σ σ' : State} {e : Expr}
  {es : List Expr} {v : Variable} {vs : List Variable} {sp : Word} {N index : Nat} {k : List Line}

namespace Storable

theorem tail (h : Storable div A m sp N index (e :: es) (v :: vs)) :
    Storable div A m sp N (index + 1) es vs where
  suits := (List.forall₂_cons.1 h.suits).2
  offsets i w hw := by
    rw [Nat.add_assoc, Nat.add_comm 1 i]
    exact h.offsets (i + 1) w hw
  fits := by
    have hle := h.fits
    rw [List.length_cons] at hle
    omega
  room := h.room
  reads i e' v' he hv := h.reads (i + 1) e' v' he hv

theorem suits_head (h : Storable div A m sp N index (e :: es) (v :: vs)) :
    e.HasType (A.table.typeEnv A.scope) v.type := (List.forall₂_cons.1 h.suits).1.1

theorem index_lt (h : Storable div A m sp N index (e :: es) (v :: vs)) : index < N := by
  have hle := h.fits
  rw [List.length_cons] at hle
  omega

/-- The words that are read for an argument are as they were before the call. -/
theorem unchanged (h : Storable div A m sp N index (e :: es) (v :: vs))
    (hσ : Preparing A m a sp N σ) :
    ∀ x ∈ e.passedReads div A m v.isReference, σ.memory x = m x := by
  intro x hx
  apply hσ.memory
  intro j hj heq
  rw [heq] at hx
  exact h.reads 0 e v rfl rfl j hj hx

end Storable

theorem Preparing.store (hσ : Preparing A m a sp N σ) (hb : a.base.isFree = false)
    (hi : index < N) (hk : σ.Keeps s σ')
    (hm : ∀ x, x ≠ argumentPlace sp index → σ'.memory x = σ.memory x) :
    Preparing A m a sp N σ' where
  stackPointer := by rw [hk _ (.inl rfl), hσ.stackPointer]
  framePointer := by rw [hk _ (.inl hb), hσ.framePointer]
  memory x hx := by rw [hm x (hx index hi), hσ.memory x hx]

/-- An argument that has been stored before the rest of the arguments. -/
theorem Stored.cons {w : Word} {c : Config} (hes : Storable div A m sp N index (e :: es) (v :: vs))
    (hσ : σ.read .stackPointer = sp) (hk : σ.Keeps s σ') (hm : σ'.memory = σ.memory)
    (hw : e.Passes div A m v.isReference w)
    (h : Stored div A m s (σ'.store (argumentPlace sp index) w) (index + 1) es vs k c) :
    Stored div A m s σ index (e :: es) (v :: vs) k c := by
  have hσ' : σ'.read .stackPointer = sp := by rw [hk _ (.inl rfl), hσ]
  obtain ⟨hcode, hkeeps, hwords, hothers⟩ := h
  rw [State.read_store, hσ'] at hwords hothers
  refine ⟨hcode, hk.trans hkeeps, ?_, ?_⟩
  · intro i e' v' he' hv'
    rw [hσ]
    cases i with
    | zero =>
      cases he'
      cases hv'
      -- the rest of the arguments lies above this one
      have hword : c.state.memory (argumentPlace sp index) = w := by
        rw [hothers, State.memory_store, Memory.set_self]
        intro i hi heq
        have hfits := hes.fits
        have hroom := hes.room
        rw [List.length_cons] at hfits
        have := argumentPlace_injective (by omega) (by omega) heq
        omega
      rw [Nat.add_zero, hword]
      exact hw
    | succ i =>
      rw [← Nat.add_assoc, Nat.add_right_comm]
      exact hwords i e' v' he' hv'
  · intro x hx
    rw [hσ] at hx
    rw [hothers, State.memory_store, Memory.set_of_ne, hm]
    · exact hx 0 (Nat.zero_lt_succ _)
    · intro i hi
      rw [Nat.add_assoc, Nat.add_comm 1 i]
      exact hx (i + 1) (Nat.succ_lt_succ hi)

/-- After the evaluation of an argument and the store, the rest of the arguments. -/
theorem Machine.Leads.argument {r : Except Trap Word} {offset : Word} {comment : String}
    {rest : List Line} {c : Config}
    (hl : Leads div program (Yields s σ σ.memory r
      (noted (.store s.current .stackPointer offset) comment :: rest)) (StopsAs r σ.memory) c)
    (hr : ∀ w, e.Passes div A m v.isReference w ↔ r = .ok w) (ho : v.offset = some offset)
    (hes : Storable div A m sp N index (e :: es) (v :: vs)) (hσ : Preparing A m a sp N σ)
    (hb : a.base.isFree = false)
    (hrest : ∀ σ₁ : State, Preparing A m a sp N σ₁ →
      Leads div program (Stored div A m s σ₁ (index + 1) es vs k)
        (StopsInArguments div A m es vs) ⟨rest, σ₁⟩) :
    Leads div program (Stored div A m s σ index (e :: es) (v :: vs) k)
      (StopsInArguments div A m (e :: es) (v :: vs)) c := by
  refine hl.bind ?_ ?_
  · intro c hc
    obtain ⟨_, σ₁⟩ := c
    obtain ⟨rfl, hm, hk, hv⟩ := hc
    have hplace : σ₁.read .stackPointer + offset = argumentPlace sp index := by
      have hoff := hes.offsets 0 v rfl
      rw [ho, Option.some.injEq] at hoff
      rw [hk _ (.inl rfl), hσ.stackPointer, hoff]
      rfl
    have hstep : step div program ⟨noted (.store s.current .stackPointer offset) comment :: rest,
        σ₁⟩ = .goes ⟨rest, σ₁.store (argumentPlace sp index) (σ₁.read s.current)⟩ := by
      rw [← hplace]
      rfl
    have hset : ∀ x, x ≠ argumentPlace sp index →
        (σ₁.store (argumentPlace sp index) (σ₁.read s.current)).memory x = σ.memory x := by
      intro x hx
      rw [State.memory_store, Memory.set_of_ne hx, hm]
    refine .next hstep ((hrest (σ₁.store _ _) (hσ.store hb hes.index_lt hk hset)).mono ?_ ?_)
    · exact fun c hc => hc.cons hes hσ.stackPointer hk hm ((hr _).2 hv)
    · intro h _ hx
      obtain ⟨htrap, i, e', v', he', hv', hnot⟩ := hx
      exact ⟨htrap, i + 1, e', v', he', hv', hnot⟩
  · intro h σ' hs
    obtain ⟨x, rfl, hx, -⟩ := hs
    refine ⟨⟨x, hx⟩, 0, e, v, rfl, rfl, fun w hw => ?_⟩
    cases (hr w).1 hw

/-- The code of the arguments of a call stores what they pass, as it is before the call. -/
theorem Call.ArgumentsCode.leads (hL : Linked program) (hE : (t.typeEnv a.scope).Fits)
    (hb : a.base.isFree = false) {fp : Word} {n : Nat} {code : List Line}
    (h : Call.ArgumentsCode t a s n index es vs code) :
    Storable div ⟨t, a.scope, fp⟩ m sp N index es vs → code ++ k <:+ program →
    ∀ σ : State, Preparing ⟨t, a.scope, fp⟩ m a sp N σ →
    Leads div program (Stored div ⟨t, a.scope, fp⟩ m s σ index es vs k)
      (StopsInArguments div ⟨t, a.scope, fp⟩ m es vs) ⟨code ++ k, σ⟩ := by
  induction h with
  | nil =>
    intro _ _ σ _
    exact .here ⟨rfl, .refl s σ, by simp, fun _ _ => rfl⟩
  | value href ho he _ ih =>
    intro hes hp σ hσ
    rw [List.append_assoc] at hp ⊢
    have hrest := (List.suffix_cons ..).trans ((List.suffix_append ..).trans hp)
    have hread := hes.unchanged hσ
    refine (he.leads hL hE hb hes.suits_head hp ⟨rfl, hσ.framePointer⟩).argument ?_ ho hes hσ hb
      (ih hes.tail hrest)
    rw [href] at hread ⊢
    exact fun w => Expr.passes_value_iff hread
  | reference href ho hd _ ih =>
    intro hes hp σ hσ
    rw [List.append_assoc] at hp ⊢
    have hrest := (List.suffix_cons ..).trans ((List.suffix_append ..).trans hp)
    have hread := hes.unchanged hσ
    cases hes.suits_head with
    | designator hty =>
      refine (hd.leads hL hE hb hty hp ⟨rfl, hσ.framePointer⟩).argument ?_ ho hes hσ hb
        (ih hes.tail hrest)
      rw [href] at hread ⊢
      exact fun w => Expr.passes_reference_iff hread

end

/-! ## Calls -/

/-- The code of a call runs up to the jump, and the code at the beginning of the called procedure
runs from there to its end, with the given return address. -/
def CallEnters (div : Word → Word → Option Word) (procedure : String) (code entry : List Line)
    (returnAddress : Word) (σ σ' : State) : Prop :=
  ∃ n k σ₁, Runs div code n ⟨code, σ⟩ (.called procedure) σ₁ ∧
    Runs div entry k ⟨entry, σ₁.write .returnAddress returnAddress⟩ .finished σ'

section

variable {div : Word → Word → Option Word} {t : SymbolTable} {a : Addressing} {s : RegisterStack}
  {n N : Nat} {c : Call} {Q : Procedure} {code entry : List Line} {m : Memory} {fp sp : Word}
  {σ : State} {size : Word}

/-- The arguments of a call have been stored when it jumps. -/
structure Delivered (div : Word → Word → Option Word) (A : Activation) (c : Call)
    (vs : List Variable) (σ σ' : State) : Prop where
  stackPointer : σ'.read .stackPointer = σ.read .stackPointer
  words : ∀ (i : Nat) (e : Expr) (v : Variable), c.arguments[i]? = some e → vs[i]? = some v →
    e.Passes div A σ.memory v.isReference
      (σ'.memory (argumentPlace (σ.read .stackPointer) i))

/-- The code of a call stops in its arguments, or jumps to the procedure when they are stored. -/
theorem Stmt.Code.call_leads (hcode : (Stmt.call c).Code t a s n code) (hL : Linked code)
    (hE : (t.typeEnv a.scope).Fits) (hb : a.base.isFree = false)
    (hQ : t.procedure? c.procedure = some Q)
    (hes : Storable div ⟨t, a.scope, σ.read a.base + a.bias⟩ σ.memory (σ.read .stackPointer) N 0
      c.arguments Q.parameters) :
    Leads div code (fun _ => False)
      (fun h σ' => h = .called c.procedure ∧
          Delivered div ⟨t, a.scope, σ.read a.base + a.bias⟩ c Q.parameters σ σ' ∨
        StopsInArguments div ⟨t, a.scope, σ.read a.base + a.bias⟩ σ.memory c.arguments Q.parameters
          h σ')
      ⟨code, σ⟩ := by
  cases hcode with
  | call hQ' hargs =>
    rw [hQ, Option.some.injEq] at hQ'
    subst hQ'
    have hσ : Preparing ⟨t, a.scope, σ.read a.base + a.bias⟩ σ.memory a (σ.read .stackPointer) N
        σ := ⟨rfl, rfl, fun _ _ => rfl⟩
    refine (hargs.leads hL hE hb hes (List.suffix_refl _) σ hσ).bind ?_ fun _ _ => .inr
    intro c' hc
    obtain ⟨_, σ'⟩ := c'
    obtain ⟨rfl, hk, hwords, -⟩ := hc
    refine .halt rfl (.inl ⟨rfl, hk _ (.inl rfl), fun i e v he hv => ?_⟩)
    have hword := hwords i e v he hv
    rwa [Nat.zero_add] at hword

/-- The code at the beginning of a procedure runs to its end. -/
theorem EntryCode.finishes {layout : FrameLayout} (h : EntryCode layout size entry)
    (hne : ∀ old ret, linkageOffsets layout = .ok (old, ret) → old - size ≠ ret) :
    Leads div entry (fun _ => False) (fun h σ' => h = .finished ∧ InFrame layout size σ σ' ∧
      ∀ x ∉ layout.linkageWords size (σ.read .stackPointer), σ'.memory x = σ.memory x)
      ⟨entry, σ⟩ := by
  have hl : ∀ X : Halt → State → Prop, Leads div entry (fun c => c.code = [] ∧
      InFrame layout size σ c.state ∧
      ∀ x ∉ layout.linkageWords size (σ.read .stackPointer), c.state.memory x = σ.memory x) X
      ⟨entry ++ [], σ⟩ := fun _ => h.leads hne
  rw [List.append_nil] at hl
  refine (hl _).bind ?_ fun _ _ h => h
  intro c hc
  obtain ⟨_, σ'⟩ := c
  obtain ⟨rfl, hin, hm⟩ := hc
  exact .halt rfl ⟨rfl, hin, hm⟩

end

end Spl
