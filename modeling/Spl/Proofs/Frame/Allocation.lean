import Spl.Proofs.Frame.Placed
import Spl.Proofs.Step
import Spl.Proofs.Typing.Accepted

/-!
# Allocation of accepted programs

Allocating the frames of an accepted program writes places and nothing else, and places every
procedure. Its only fault is an argument area that is larger than any word.

* `copyOffsets_ends`, `placeLocals_ends`: the loops over the declarations of a procedure.
* `outgoingBytes_eq`: the size of the outgoing area.
* `allocateProcedure_ends`: one procedure.
* `allocate_ends`: a program.
-/

namespace Spl

open SymbolTable

variable {A : Prop} {t : SymbolTable} {ds : List ProcDecl} {d : ProcDecl} {P : Procedure}
  {scope : ScopeId}

/-- The faults admitted where sums may overflow if `A` holds. -/
def SumFault (A : Prop) (f : Fault) : Prop := f = .overflow .addition ∧ A

theorem Ends.lift_bind {α β : Type} {E : Fault → Prop} {R : β → SymbolTable → Prop}
    {x : Except Fault α} {a : α} {f : α → Allocation β} (hx : x = .ok a)
    (h : Ends E R (f a) t) : Ends E R ((liftM x : Allocation α) >>= f) t := by
  subst hx
  exact h

/-- A sum of bytes succeeds if it is a word. -/
theorem Ends.exact_bind {β : Type} {R : β → SymbolTable → Prop} {n : Nat}
    {f : Word → Allocation β} (hn : n ≤ Word.maxNat ∨ A)
    (h : n ≤ Word.maxNat → Ends (SumFault A) R (f (Int32.ofNat n)) t) :
    Ends (SumFault A) R ((liftM (Word.exact .addition (n : Int)) : Allocation Word) >>= f) t := by
  by_cases hle : n ≤ Word.maxNat
  · exact Ends.lift_bind (Word.exact_natCast _ hle) (h hle)
  · rw [Word.exact_natCast_of_lt _ (by omega)]
    exact ⟨rfl, hn.resolve_left hle⟩

/-! ## Declarations of a procedure -/

theorem copyOffsets_ends {E : Fault → Prop} : ∀ {ps : List (ParamDecl × Variable)}
    {t : SymbolTable}, t.HasScope scope → (ps.map (·.1.name)).Nodup →
    (∀ p ∈ ps, ∃ v, t.local? scope p.1.name = some v) →
    Ends E (fun _ t' =>
        t.WritesPlaces (fun id n => id = scope ∧ n ∈ ps.map (·.1.name)) t' ∧
        ∀ p ∈ ps, ∃ v, t'.local? scope p.1.name = some v ∧ v.offset = p.2.offset)
      (copyOffsets scope ps) t
  | [], t, _, _, _ => ⟨.refl t, by simp⟩
  | (b, w) :: ps, t, hs, hnd, hv => by
    obtain ⟨v, hv₀⟩ := hv (b, w) (.head _)
    rw [List.map_cons, List.nodup_cons] at hnd
    obtain ⟨hw, hv₁⟩ := writesPlaces_updateLocal hs hv₀ w.offset
    unfold copyOffsets
    refine .get_bind ?_
    dsimp only
    rw [hv₀, if_neg (by simp)]
    refine .modify_bind ((copyOffsets_ends ((hw.hasScope _).2 hs) hnd.2 fun p hp => ?_).mono ?_)
    · obtain ⟨v', hv'⟩ := hv p (.tail _ hp)
      obtain ⟨v'', hv'', -⟩ := hw.local? hv'
      exact ⟨v'', hv''⟩
    · intro _ t' h
      obtain ⟨hw', hps⟩ := h
      refine ⟨(hw.mono ?_).trans (hw'.mono ?_), fun p hp => ?_⟩
      · intro id n h
        obtain ⟨rfl, rfl⟩ := h
        exact ⟨rfl, .head _⟩
      · intro id n h
        obtain ⟨rfl, hn⟩ := h
        exact ⟨rfl, .tail _ hn⟩
      · rcases List.mem_cons.1 hp with rfl | hp
        · exact ⟨_, (hw'.local?_of_not fun h => hnd.1 h.2).trans hv₁, rfl⟩
        · exact hps p hp

/-- The next local variable ends where those before it begin. -/
theorem exists_place_below {before k : Word} {m n : Nat} (hm : before.toInt = m) (hk : k.toInt = n)
    (hroom : m + n ≤ Word.maxNat) : ∃ size offset, before.sum k = .ok size ∧
      size.toInt = ((m + n : Nat) : Int) ∧ size.negation = .ok offset ∧
      offset.toInt = -((m + n : Nat) : Int) := by
  have hr : Word.InRange (before.toInt + k.toInt) := by
    unfold Word.InRange Word.maxNat at *
    omega
  obtain ⟨size, hsize, hvalue⟩ := Word.sum_of_inRange hr
  have hsum : size.toInt = ((m + n : Nat) : Int) := by omega
  obtain ⟨offset, hoff, hvalue'⟩ := Word.negation_of_inRange (a := size) (by
    unfold Word.InRange Word.maxNat at *
    omega)
  exact ⟨size, offset, hsize, hsum, hoff, by rw [hvalue', hsum]⟩

/-- The offsets of local variables: each lies directly below those before it. -/
theorem placeLocals_ends {E : Fault → Prop} : ∀ {bs : List (Binding TypeExpr)} {t : SymbolTable}
    {before : Word} {m : Nat}, before.toInt = m → t.HasScope scope → (bs.map (·.name)).Nodup →
    (∀ b ∈ bs, ∃ v, t.local? scope b.name = some v ∧ v.type.Fits ∧
      b.type.slot.type? = some v.type) →
    m + ProcDecl.bytesOf bs ≤ Word.maxNat →
    Ends E (fun (size : Word) t' => size.toInt = ((m + ProcDecl.bytesOf bs : Nat) : Int) ∧
        t.WritesPlaces (fun id n => id = scope ∧ n ∈ bs.map (·.name)) t' ∧
        ∀ (i : Nat) b, bs[i]? = some b → ∃ v w, t'.local? scope b.name = some v ∧
          v.offset = some w ∧ w.toInt = -((m + ProcDecl.bytesOf (bs.take (i + 1)) : Nat) : Int))
      (placeLocals scope before bs) t
  | [], t, before, m, hm, _, _, _, _ => ⟨hm, .refl t, by simp⟩
  | b :: bs, t, before, m, hm, hs, hnd, hv, hroom => by
    obtain ⟨v, hv₀, hfit, hslot⟩ := hv b (.head _)
    rw [List.map_cons, List.nodup_cons] at hnd
    have hbytes : b.type.bytes = v.type.bytes := by rw [TypeExpr.bytes, hslot]; rfl
    have hcons : ∀ l, ProcDecl.bytesOf (b :: l) = v.type.bytes + ProcDecl.bytesOf l := fun l => by
      rw [ProcDecl.bytesOf, hbytes]
    rw [hcons] at hroom
    obtain ⟨k, hk, hk'⟩ := Ty.byteSize_of_fits hfit
    obtain ⟨size, offset, hsize, hsize', hoff, hoff'⟩ := exists_place_below hm hk' (by omega)
    obtain ⟨hw, hv₁⟩ := writesPlaces_updateLocal hs hv₀ (some offset)
    unfold placeLocals
    refine .get_bind ?_
    rw [hv₀]
    refine .lift_bind hk (.lift_bind hsize (.lift_bind hoff (.modify_bind ?_)))
    refine (placeLocals_ends hsize' ((hw.hasScope _).2 hs) hnd.2 (fun c hc => ?_)
      (by omega)).mono ?_
    · obtain ⟨v', hv', hfit', hslot'⟩ := hv c (.tail _ hc)
      obtain ⟨v'', hv'', hview⟩ := hw.local? hv'
      simp only [Variable.view, Prod.mk.injEq] at hview
      exact ⟨v'', hv'', by rw [hview.1]; exact hfit', by rw [hview.1]; exact hslot'⟩
    · intro total t' h
      obtain ⟨htotal, hw', hbs⟩ := h
      refine ⟨by rw [hcons, ← Nat.add_assoc]; exact htotal, (hw.mono ?_).trans (hw'.mono ?_), ?_⟩
      · intro id n h
        obtain ⟨rfl, rfl⟩ := h
        exact ⟨rfl, .head _⟩
      · intro id n h
        obtain ⟨rfl, hn⟩ := h
        exact ⟨rfl, .tail _ hn⟩
      · intro i c hc
        cases i with
        | zero =>
          cases hc
          refine ⟨_, offset, (hw'.local?_of_not fun h => hnd.1 h.2).trans hv₁, rfl, ?_⟩
          rw [hoff', List.take_succ_cons, List.take_zero, hcons]
          rfl
        | succ i =>
          obtain ⟨v', w', hl, ho, hval⟩ := hbs i c hc
          exact ⟨v', w', hl, ho, by rw [hval, List.take_succ_cons, hcons, ← Nat.add_assoc]⟩

/-! ## Calls -/

theorem le_foldl_max (cs : List Call) (n : Nat) :
    n ≤ cs.foldl (fun n c => max n c.arguments.length) n := by
  induction cs generalizing n with
  | nil => exact Nat.le_refl n
  | cons c cs ih => exact Nat.le_trans (Nat.le_max_left ..) (ih _)

theorem exists_of_forall₂_right {α β : Type} {R : α → β → Prop} {l : List α} {m : List β} {b : β}
    (h : List.Forall₂ R l m) (hb : b ∈ m) : ∃ a, R a b := by
  induction h with
  | nil => cases hb
  | cons hab _ ih =>
    rcases List.mem_cons.1 hb with rfl | hb
    · exact ⟨_, hab⟩
    · exact ih hb

theorem exists_of_forall₂_left {α β : Type} {R : α → β → Prop} {l : List α} {m : List β} {a : α}
    (h : List.Forall₂ R l m) (ha : a ∈ l) : ∃ b, R a b :=
  exists_of_forall₂_right h.flip ha

/-- Every parameter that a table holds takes one word. -/
theorem SymbolTable.Holds.footprint_eq (hH : t.Holds ds) {name : String} {Q : Procedure}
    (hQ : t.procedure? name = some Q) {v : Variable} (hv : v ∈ Q.parameters) :
    v.footprint = .ok wordBytes := by
  have he := procedure?_eq_some_iff.1 hQ
  rcases hH.only name _ he with ⟨ty, hty, -⟩ | ⟨-, ⟨b, hb, rfl⟩ | ⟨d, hd, rfl⟩⟩
  · cases hty
  · obtain ⟨Q', hQ', hps⟩ := hH.builtins b hb
    rw [hQ, Option.some.injEq] at hQ'
    rw [hQ', hps] at hv
    exact Builtin.footprint_eq hv
  · obtain ⟨Q', hQ'⟩ := hH.declares d hd
    have hp := hQ'.procedure
    rw [hQ, Option.some.injEq] at hp
    rw [hp] at hv
    obtain ⟨b, hr, -⟩ := exists_of_forall₂_right hQ'.parameters hv
    exact hr.footprint_eq

/-- A name that has a signature stands for a procedure with these parameters. -/
theorem SymbolTable.Declares.signature?_eq (hP : t.Declares d P) {name : String}
    {views : List (Ty × Bool)} (h : (t.typeEnv P.localScope).signature? name = some views) :
    ∃ Q, t.procedure? name = some Q ∧ Q.parameters.map Variable.view = views := by
  have h' : ((t.find? P.localScope name).bind Entry.proc?).map
      (·.parameters.map Variable.view) = some views := h
  rw [Option.map_eq_some_iff] at h'
  obtain ⟨Q, hQ, hviews⟩ := h'
  rw [Option.bind_eq_some_iff] at hQ
  obtain ⟨e, he, heQ⟩ := hQ
  cases e with
  | proc Q' =>
    cases heQ
    exact ⟨Q, hP.find?_proc he, hviews⟩
  | type _ => cases heQ
  | var _ => cases heQ

/-- A well-typed call names a procedure and has a suitable argument for each of its parameters. -/
theorem Call.WellTyped.callee {c : Call} (hP : t.Declares d P)
    (h : c.WellTyped (t.typeEnv P.localScope)) :
    ∃ Q, t.procedure? c.procedure = some Q ∧
      List.Forall₂ (Expr.Suits (t.typeEnv P.localScope)) c.arguments
        (Q.parameters.map Variable.view) := by
  obtain ⟨views, hviews, hargs⟩ := h
  obtain ⟨Q, hQ, rfl⟩ := hP.signature?_eq hviews
  exact ⟨Q, hQ, hargs⟩

/-- A well-typed call has as many arguments as the procedure that it calls has parameters. -/
theorem Call.WellTyped.procedure? {c : Call} (hP : t.Declares d P)
    (h : c.WellTyped (t.typeEnv P.localScope)) :
    ∃ Q, t.procedure? c.procedure = some Q ∧ c.arguments.length = Q.parameters.length := by
  obtain ⟨Q, hQ, hargs⟩ := h.callee hP
  exact ⟨Q, hQ, by simpa using hargs.length_eq⟩

/-- The larger one of two sizes. -/
theorem ite_ofNat_lt {a b : Nat} (ha : a ≤ Word.maxNat) (hb : b ≤ Word.maxNat) :
    (if (Int32.ofNat a : Word) < Int32.ofNat b then (Int32.ofNat b : Word) else Int32.ofNat a) =
      Int32.ofNat (max b a) := by
  have hlt : (Int32.ofNat a : Word) < Int32.ofNat b ↔ a < b := by
    rw [Int32.lt_iff_toInt_lt, Word.toInt_ofNat ha, Word.toInt_ofNat hb]
    omega
  by_cases h : a < b
  · rw [if_pos (hlt.2 h), Nat.max_eq_left (Nat.le_of_lt h)]
  · rw [if_neg (mt hlt.1 h), Nat.max_eq_right (Nat.le_of_not_lt h)]

/-- The outgoing area has room for the longest call. -/
theorem outgoingBytesFrom_eq (hH : t.Holds ds) {cs : List Call} {n : Nat}
    (hn : 4 * n ≤ Word.maxNat)
    (hc : ∀ c ∈ cs, ∃ Q, t.procedure? c.procedure = some Q ∧
      c.arguments.length = Q.parameters.length) :
    outgoingBytesFrom t (Int32.ofNat (4 * n)) cs = Word.exact .addition
      ((4 * cs.foldl (fun n c => max n c.arguments.length) n : Nat) : Int) := by
  induction cs generalizing n with
  | nil => rw [outgoingBytesFrom, List.foldl_nil, Word.exact_natCast _ hn]
  | cons c cs ih =>
    obtain ⟨Q, hQ, hlen⟩ := hc c (.head _)
    have hbytes : Q.argumentBytes =
        Word.exact .addition ((4 * c.arguments.length : Nat) : Int) := by
      have h := @argumentBytesFrom_eq 0 Q.parameters (by decide) fun v hv => hH.footprint_eq hQ hv
      rw [Nat.zero_add, ← hlen] at h
      exact h
    have hle : max n c.arguments.length ≤
        cs.foldl (fun n c => max n c.arguments.length) (max n c.arguments.length) :=
      le_foldl_max cs _
    rw [outgoingBytesFrom, List.foldl_cons]
    simp only [hQ, hbytes]
    by_cases hm : 4 * c.arguments.length ≤ Word.maxNat
    · rw [Word.exact_natCast _ hm]
      show outgoingBytesFrom t (if _ then _ else _) cs = _
      rw [ite_ofNat_lt hm hn, Nat.mul_max_mul_left]
      exact ih (by omega) fun c' hc' => hc c' (.tail _ hc')
    · rw [Word.exact_natCast_of_lt _ (by omega), Word.exact_natCast_of_lt _ (by omega)]
      rfl

/-! ## Procedures -/

namespace ProcDecl

/-- The arguments of the procedure and of its calls take no more bytes than a word counts. -/
structure ArgumentRoom (d : ProcDecl) : Prop where
  parameters : 4 * d.parameters.length ≤ Word.maxNat
  calls : 4 * d.longestCall ≤ Word.maxNat

end ProcDecl

/-- The entries of one procedure: its own one and those of its local scope. -/
def placesOf (name : String) (scope : ScopeId) (id : ScopeId) (n : String) : Prop :=
  id = global ∧ n = name ∨ id = scope

/-- A procedure stays placed when places are written elsewhere. -/
theorem Placed.of_writesPlaces {leaves : Bool} {S : ScopeId → String → Prop} {t' : SymbolTable}
    (hp : Placed leaves t d P) (h : t.WritesPlaces S t') (hS : ∀ n, ¬S P.localScope n) :
    Placed leaves t' d P := by
  have hl : ∀ n, t'.local? P.localScope n = t.local? P.localScope n := fun n =>
    h.local?_of_not (hS n)
  exact
    { hp with
      parameters := fun i b hb => by simpa only [hl] using hp.parameters i b hb
      locals := fun i b hb => by simpa only [hl] using hp.locals i b hb }

/-- Placing the parameters as callers see them. -/
theorem placeSignature_ends (hH : t.Holds ds) {name : String} (hP : t.procedure? name = some P)
    (hroom : 4 * P.parameters.length ≤ Word.maxNat ∨ A) :
    Ends (SumFault A) (fun r t' =>
        r = (placedFrom 0 P.parameters, Int32.ofNat (4 * P.parameters.length)) ∧
        4 * P.parameters.length ≤ Word.maxNat ∧
        t.WritesPlaces (fun id n => id = global ∧ n = name) t' ∧
        t'.procedure? name = some { P with parameters := placedFrom 0 P.parameters })
      (placeSignature name P) t := by
  have hfoot : ∀ v ∈ P.parameters, v.footprint = .ok wordBytes :=
    fun v hv => hH.footprint_eq hP hv
  have h0 : (0 : Word) = Int32.ofNat 0 := rfl
  unfold placeSignature
  refine .modify_bind ?_
  rw [h0]
  by_cases hle : 4 * P.parameters.length ≤ Word.maxNat
  · rw [placeParameters_eq hfoot (by omega), Nat.zero_add]
    refine .lift_bind rfl (.pure ⟨rfl, hle, ?_⟩)
    refine writesPlaces_updateProcedure hH.hasScope hH.enclosing hP ?_
    simp only [Procedure.outline, map_outline_placedFrom]
  · rw [placeParameters_of_lt (by decide) hfoot (by omega)]
    exact ⟨rfl, hroom.resolve_left hle⟩

/-- The variables of a procedure are placed, its frame is not yet. -/
structure VariablesPlaced (t t' : SymbolTable) (d : ProcDecl) (P : Procedure) (localArea : Word) :
    Prop where
  writes : t.WritesPlaces (placesOf d.name P.localScope) t'
  procedure : t'.procedure? d.name = some { P with parameters := placedFrom 0 P.parameters }
  room : 4 * d.parameters.length ≤ Word.maxNat
  parameters : ∀ (i : Nat) b, d.parameters[i]? = some b → ∃ v w,
    t'.local? P.localScope b.name = some v ∧ v.offset = some w ∧ w.toInt = 4 * (i : Int)
  locals : ∀ (i : Nat) b, d.locals[i]? = some b → ∃ v w, t'.local? P.localScope b.name = some v ∧
    v.offset = some w ∧ w.toInt = -(ProcDecl.bytesOf (d.locals.take (i + 1)) : Int)
  size : localArea = Int32.ofNat d.localBytes

/-- The parameters of a procedure, where only places have been written. -/
theorem SymbolTable.Declares.local?_parameter {S : ScopeId → String → Prop} {t' : SymbolTable}
    (hP : t.Declares d P) (hw : t.WritesPlaces S t') {b : ParamDecl} (hb : b ∈ d.parameters) :
    ∃ v, t'.local? P.localScope b.name = some v := by
  obtain ⟨_, -, w, hw', -⟩ := exists_of_forall₂_left hP.parameters hb
  obtain ⟨v, hv, -⟩ := hw.local? hw'
  exact ⟨v, hv⟩

/-- The local variables of a procedure, where only places have been written. -/
theorem SymbolTable.Declares.local?_local {S : ScopeId → String → Prop} {t' : SymbolTable}
    (hP : t.Declares d P) (hw : t.WritesPlaces S t') {b : Binding TypeExpr} (hb : b ∈ d.locals) :
    ∃ v, t'.local? P.localScope b.name = some v ∧ v.type.Fits ∧
      b.type.slot.type? = some v.type := by
  obtain ⟨v, hv, -, hslot⟩ := hP.locals b hb
  obtain ⟨-, u, hu, hfit⟩ := hP.only _ _ (local?_eq_some_iff.1 hv)
  cases hu
  obtain ⟨v', hv', hview⟩ := hw.local? hv
  simp only [Variable.view, Prod.mk.injEq] at hview
  exact ⟨v', hv', by rw [hview.1]; exact hfit, by rw [hview.1]; exact hslot⟩

theorem map_name_zip {ps : List ParamDecl} {vs : List Variable} (hlen : vs.length = ps.length) :
    (ps.zip vs).map (·.1.name) = ps.map (·.name) := by
  have hz : (ps.zip vs).map Prod.fst = ps := List.map_fst_zip (by omega)
  have h := congrArg (List.map (fun b : ParamDecl => b.name)) hz
  rwa [List.map_map] at h

/-- The offset that is copied for a parameter is the one of the signature. -/
theorem offset_of_mem_zip {ps : List ParamDecl} {vs : List Variable} {i : Nat} {b : ParamDecl}
    (hlen : vs.length = ps.length) (hroom : 4 * ps.length ≤ Word.maxNat) (hb : ps[i]? = some b)
    (h : ∀ p ∈ ps.zip (placedFrom 0 vs), ∃ v, t.local? scope p.1.name = some v ∧
      v.offset = p.2.offset) :
    ∃ v w, t.local? scope b.name = some v ∧ v.offset = some w ∧ w.toInt = 4 * (i : Int) := by
  have hi := (List.getElem?_eq_some_iff.1 hb).1
  obtain ⟨v, hv⟩ : ∃ v, (placedFrom 0 vs)[i]? = some v :=
    ⟨_, List.getElem?_eq_getElem (by rw [length_placedFrom, hlen]; exact hi)⟩
  have hmem : (b, v) ∈ ps.zip (placedFrom 0 vs) :=
    List.mem_of_getElem? (List.getElem?_zip_eq_some.2 ⟨hb, hv⟩)
  obtain ⟨u, hu, ho⟩ := h _ hmem
  refine ⟨u, Int32.ofNat (4 * i), hu, ?_, ?_⟩
  · rw [ho, offset_of_getElem?_placedFrom 0 vs hv, Nat.zero_add]
  · rw [Word.toInt_ofNat (by omega)]
    omega

/-- The first three steps of allocating a procedure. -/
theorem placeVariables_bind {E : Fault → Prop} {R : Unit → SymbolTable → Prop}
    {f : List Variable × Word → Word → Allocation Unit} (hE : ∀ e, SumFault A e → E e)
    (hH : t.Holds ds) (hP : t.Declares d P) (hroom : 4 * d.parameters.length ≤ Word.maxNat ∨ A)
    (hf : ∀ localArea t', VariablesPlaced t t' d P localArea →
      Ends E R (f (placedFrom 0 P.parameters, Int32.ofNat (4 * d.parameters.length)) localArea)
        t') :
    Ends E R (do
      let r ← placeSignature d.name P
      copyOffsets P.localScope (d.parameters.zip r.1)
      let localArea ← placeLocals P.localScope 0 d.locals
      f r localArea) t := by
  have hlen := hP.parameters.length_eq
  have hnd := hP.nodup
  rw [ProcDecl.names, List.nodup_append] at hnd
  obtain ⟨hndp, hndl, hdisj⟩ := hnd
  refine ((placeSignature_ends hH hP.procedure (hlen ▸ hroom)).imp hE fun _ _ h => h).bind ?_
  intro _ t₁ h
  obtain ⟨rfl, hsize, hw₁, hp₁⟩ := h
  have hzip : (d.parameters.zip (placedFrom 0 P.parameters)).map (·.1.name) =
      d.parameters.map (·.name) := map_name_zip (by rw [length_placedFrom, hlen])
  refine (copyOffsets_ends ((hw₁.hasScope _).2 hP.hasScope) (by rw [hzip]; exact hndp)
    fun p hp => hP.local?_parameter hw₁ (List.of_mem_zip hp).1).bind ?_
  intro _ t₂ h
  obtain ⟨hw₂, hps⟩ := h
  rw [hzip] at hw₂
  have hroom₃ : 0 + ProcDecl.bytesOf d.locals ≤ Word.maxNat := by
    have h := hP.room
    unfold ProcDecl.localBytes at h
    omega
  have hw₁₂ : t.WritesPlaces (placesOf d.name P.localScope) t₂ :=
    (hw₁.mono fun id n h => .inl h).trans (hw₂.mono fun id n h => .inr h.1)
  refine (placeLocals_ends rfl ((hw₁₂.hasScope _).2 hP.hasScope) hndl
    (fun b hb => hP.local?_local hw₁₂ hb) hroom₃).bind ?_
  intro localArea t₃ h
  obtain ⟨hlocal, hw₃, hls⟩ := h
  rw [← hlen]
  refine hf localArea t₃ ?_
  refine
    { writes := hw₁₂.trans (hw₃.mono fun id n h => .inr h.1)
      procedure := ?_
      room := hlen ▸ hsize
      parameters := fun i b hb => ?_
      locals := fun i b hb => ?_
      size := Word.eq_ofNat (by rw [hlocal, Nat.zero_add]; rfl) }
  · rw [hw₃.procedure?_of_not fun h => hP.ne_global h.1.symm,
      hw₂.procedure?_of_not fun h => hP.ne_global h.1.symm, hp₁]
  · -- No local variable has the name of a parameter.
    obtain ⟨v, w, hv, ho, hval⟩ := offset_of_mem_zip hlen.symm (hlen ▸ hsize) hb hps
    have hname : b.name ∉ d.locals.map (·.name) := fun h =>
      hdisj _ (List.mem_map_of_mem (List.mem_of_getElem? hb)) _ h rfl
    exact ⟨v, w, (hw₃.local?_of_not fun h => hname h.2).trans hv, ho, hval⟩
  · obtain ⟨v, w, hv, ho, hval⟩ := hls i b hb
    exact ⟨v, w, hv, ho, by rw [hval, Nat.zero_add]⟩

/-- Writing one's own places moves no builtin. -/
theorem not_placesOf_builtin (hH : t.Holds ds) (hd : d.head ∈ ds) (hP : t.Declares d P) :
    ∀ b ∈ builtins, ¬placesOf d.name P.localScope global b.name := by
  intro b hb h
  rcases h with ⟨-, h⟩ | h
  · exact hH.notBuiltin d.head hd b hb h.symm
  · exact hP.ne_global h.symm

/-- Allocating a procedure writes its own places. -/
theorem allocateProcedure_ends {leaves : Bool} (hH : t.Holds ds) (hd : d.head ∈ ds)
    (hP : t.Declares d P) (hc : ∀ c ∈ d.calls, c.WellTyped (t.typeEnv P.localScope))
    (hroom : d.ArgumentRoom ∨ A) :
    Ends (SumFault A) (fun _ t' => t.WritesPlaces (placesOf d.name P.localScope) t' ∧
        ∃ P', t'.Declares d P' ∧ P'.localScope = P.localScope ∧ Placed leaves t' d P')
      (allocateProcedure leaves d) t := by
  unfold allocateProcedure
  refine .get_bind ?_
  rw [hP.procedure]
  dsimp only
  refine placeVariables_bind (fun _ he => he) hH hP (hroom.imp_left fun h => h.parameters)
    fun localArea t₃ h => ?_
  have hH₃ : t₃.Holds ds :=
    h.writes.holds (not_placesOf_builtin hH hd hP) hH
  have hcalls : ∀ c ∈ d.calls, ∃ Q, t₃.procedure? c.procedure = some Q ∧
      c.arguments.length = Q.parameters.length := fun c hcm => by
    obtain ⟨P₃, hP₃, ho⟩ := h.writes.declares hP
    refine Call.WellTyped.procedure? hP₃ ?_
    rw [Procedure.localScope_eq_of_outline ho, h.writes.typeEnv_eq]
    exact hc c hcm
  have hout : outgoingBytes t₃ d.calls =
      Word.exact .addition ((4 * d.longestCall : Nat) : Int) :=
    @outgoingBytesFrom_eq _ _ hH₃ d.calls 0 (Nat.zero_le _) hcalls
  refine .get_bind ?_
  rw [hout]
  refine .exact_bind (hroom.imp_left fun h => h.calls) fun hle => .of_modify ?_
  obtain ⟨hw, hp⟩ := writesPlaces_updateProcedure hH₃.hasScope hH₃.enclosing h.procedure
    (f := ({ · with layout :=
      { argumentArea := some (Int32.ofNat (4 * d.parameters.length))
        localArea := some localArea
        outgoingArea := some (Int32.ofNat (4 * d.longestCall))
        isLeaf := leaves && d.calls.isEmpty } })) rfl
  have hw' := h.writes.trans (hw.mono fun id n h => .inl h)
  obtain ⟨P', hP', ho⟩ := hw'.declares hP
  refine ⟨hw', P', hP', Procedure.localScope_eq_of_outline ho, ?_⟩
  have hp' := hP'.procedure
  rw [hp, Option.some.injEq] at hp'
  have hl : ∀ n, (t₃.updateProcedure d.name _).local? P.localScope n = t₃.local? P.localScope n :=
    fun n => hw.local?_of_not fun h => hP.ne_global h.1
  subst hp'
  refine
    { signature := fun i v hv => ?_
      parameters := fun i b hb => by simpa only [hl] using h.parameters i b hb
      locals := fun i b hb => by simpa only [hl] using h.locals i b hb
      layout := by rw [h.size]; rfl
      argumentRoom := h.room
      outgoingRoom := hle }
  have hi := (List.getElem?_eq_some_iff.1 hv).1
  rw [length_placedFrom, ← hP.parameters.length_eq] at hi
  have hr := h.room
  refine ⟨_, offset_of_getElem?_placedFrom 0 P.parameters hv, ?_⟩
  rw [Nat.zero_add, Word.toInt_ofNat (by omega)]
  omega

/-! ## Programs -/

/-- The table of an accepted program in which all procedures are placed. -/
structure Allocated (leaves : Bool) (t : SymbolTable) (p : Program) : Prop where
  accepted : Accepted t p
  placed : ∀ d ∈ p.procedures, ∃ P, t.Declares d P ∧ Placed leaves t d P

variable {p : Program}

theorem SymbolTable.WritesPlaces.accepted {S : ScopeId → String → Prop} {t' : SymbolTable}
    (h : t.WritesPlaces S t') (hb : ∀ b ∈ builtins, ¬S global b.name) (hA : Accepted t p) :
    Accepted t' p where
  holds := h.holds hb hA.holds
  bodies d hd P' hP' s hs := by
    obtain ⟨P, hP⟩ := hA.declares hd
    obtain ⟨Q, hQ, ho⟩ := h.declares hP
    rw [hP'.unique hQ, Procedure.localScope_eq_of_outline ho, h.typeEnv_eq]
    exact hA.bodies d hd P hP s hs

/-- The entries of a procedure that the table declares. -/
def PlacesIn (t : SymbolTable) (d : ProcDecl) (id : ScopeId) (n : String) : Prop :=
  ∃ P, t.Declares d P ∧ placesOf d.name P.localScope id n

/-- Writing places moves no entry. -/
theorem PlacesIn.of_writesPlaces {S : ScopeId → String → Prop} {t' : SymbolTable} {id : ScopeId}
    {n : String} (h : t.WritesPlaces S t') (hP : t.Declares d P) (hn : PlacesIn t' d id n) :
    PlacesIn t d id n := by
  obtain ⟨P', hP', hn⟩ := hn
  obtain ⟨Q, hQ, ho⟩ := h.declares hP
  rw [hP'.unique hQ, Procedure.localScope_eq_of_outline ho] at hn
  exact ⟨P, hP, hn⟩

/-- Two procedures have no entry in common. -/
theorem PlacesIn.name_eq (hH : t.Holds ds) {d' : ProcDecl} (hd : d.head ∈ ds) (hd' : d'.head ∈ ds)
    {id : ScopeId} {n : String} (h : PlacesIn t d id n) (h' : PlacesIn t d' id n) :
    d.name = d'.name := by
  obtain ⟨P, hP, hn⟩ := h
  obtain ⟨P', hP', hn'⟩ := h'
  rcases hn with ⟨rfl, rfl⟩ | rfl
  · rcases hn' with ⟨-, hn'⟩ | hn'
    · exact hn'
    · exact absurd hn'.symm hP'.ne_global
  · rcases hn' with ⟨hn', -⟩ | hn'
    · exact absurd hn' hP.ne_global
    · exact hH.separate d.head hd d'.head hd' P P' (declares_head_iff.2 hP)
        (declares_head_iff.2 hP') hn'

theorem mem_heads (hd : d ∈ p.procedures) : d.head ∈ p.heads := List.mem_map_of_mem hd

/-- A procedure stays placed while procedures of other names are allocated. -/
theorem Placed.of_others {leaves : Bool} {t' : SymbolTable} {l : List ProcDecl} (hA : Accepted t p)
    (hd : d ∈ p.procedures) (hl : ∀ d' ∈ l, d' ∈ p.procedures) (hname : d.name ∉ l.map (·.name))
    (hP : t.Declares d P) (hp : Placed leaves t d P)
    (hw : t.WritesPlaces (fun id n => ∃ d' ∈ l, PlacesIn t d' id n) t') :
    t'.Declares d P ∧ Placed leaves t' d P := by
  have hother : ∀ id n, PlacesIn t d id n → ¬∃ d' ∈ l, PlacesIn t d' id n := by
    intro id n h h'
    obtain ⟨d', hd', h'⟩ := h'
    have hn := h.name_eq hA.holds (mem_heads hd) (mem_heads (hl d' hd')) h'
    exact hname (hn ▸ List.mem_map_of_mem hd')
  have hPw : t'.procedure? d.name = some P := by
    rw [hw.procedure?_of_not (hother _ _ ⟨P, hP, .inl ⟨rfl, rfl⟩⟩)]
    exact hP.procedure
  obtain ⟨Q, hQ, -⟩ := hw.declares hP
  have hQP : Q = P := Option.some.inj (hQ.procedure.symm.trans hPw)
  refine ⟨hQP ▸ hQ, hp.of_writesPlaces hw fun n => ?_⟩
  exact hother _ _ ⟨P, hP, .inr rfl⟩

/-- Allocating procedures of an accepted program, one after the other. -/
theorem allocateProcedures_ends {leaves : Bool} : ∀ {l : List ProcDecl} {t : SymbolTable},
    Accepted t p → (∀ d ∈ l, d ∈ p.procedures) → (l.map (·.name)).Nodup →
    (∀ d ∈ l, d.ArgumentRoom) ∨ A →
    Ends (SumFault A) (fun _ t' => Accepted t' p ∧
        t.WritesPlaces (fun id n => ∃ d ∈ l, PlacesIn t d id n) t' ∧
        ∀ d ∈ l, ∃ P, t'.Declares d P ∧ Placed leaves t' d P)
      (allocateProcedures leaves l) t
  | [], t, hA, _, _, _ => ⟨hA, .refl t, by simp⟩
  | d :: l, t, hA, hl, hnd, hroom => by
    have hd : d ∈ p.procedures := hl d (.head _)
    obtain ⟨P, hP⟩ := hA.declares hd
    rw [List.map_cons, List.nodup_cons] at hnd
    have hc : ∀ c ∈ d.calls, c.WellTyped (t.typeEnv P.localScope) := fun c hc => by
      obtain ⟨s, hs, hcs⟩ := Stmt.mem_callsOf.1 hc
      exact (hA.bodies d hd P hP s hs).calls c hcs
    unfold allocateProcedures
    refine (allocateProcedure_ends hA.holds (mem_heads hd) hP hc
      (hroom.imp_left fun h => h d (.head _))).bind ?_
    intro _ t₁ h
    obtain ⟨hw, P₁, hP₁, hs₁, hplaced⟩ := h
    have hA₁ : Accepted t₁ p := hw.accepted (not_placesOf_builtin hA.holds (mem_heads hd) hP) hA
    refine (allocateProcedures_ends hA₁ (fun d' hd' => hl d' (.tail _ hd')) hnd.2
      (hroom.imp_left fun h d' hd' => h d' (.tail _ hd'))).mono ?_
    intro _ t' h
    obtain ⟨hA', hw', hrest⟩ := h
    refine ⟨hA', (hw.mono ?_).trans (hw'.mono ?_), fun d' hd' => ?_⟩
    · exact fun id n h => ⟨d, .head _, P, hP, h⟩
    · intro id n h
      obtain ⟨d', hd', h⟩ := h
      obtain ⟨P', hP'⟩ := hA.declares (hl d' (.tail _ hd'))
      exact ⟨d', .tail _ hd', .of_writesPlaces hw hP' h⟩
    · rcases List.mem_cons.1 hd' with rfl | hd'
      · exact ⟨P₁, hplaced.of_others hA₁ hd (fun d₂ hd₂ => hl d₂ (.tail _ hd₂)) hnd.1 hP₁ hw'⟩
      · exact hrest d' hd'

/-- Allocating an accepted program places all of its procedures. It fails only if the arguments of
some procedure take more bytes than a word counts. -/
theorem allocate_ends {leaves : Bool} (hA : Accepted t p)
    (hroom : (∀ d ∈ p.procedures, d.ArgumentRoom) ∨ A) :
    Ends (SumFault A) (fun _ t' => Allocated leaves t' p) (allocate leaves p) t := by
  exact (allocateProcedures_ends hA (fun d hd => hd) hA.nodup_names hroom).mono
    fun _ t' ⟨hA', _, hp⟩ => ⟨hA', hp⟩

/-- The table of an accepted program whose frames have been allocated. -/
theorem Allocated.of_ok {o : Options} {p : Program} {t t' : SymbolTable}
    (ht : (buildAndCheck o p).answer = .ok t)
    (hal : (allocate o.leaves (buildAndCheck o p).tree).run t = .ok () t') :
    Allocated o.leaves t' (buildAndCheck o p).tree :=
  (allocate_ends (A := True) (.of_ok ht) (.inr trivial)).ok hal

end Spl
