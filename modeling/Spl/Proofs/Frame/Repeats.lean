import Spl.Proofs.Frame.Reordering
import Spl.Proofs.Typing.Evolution

/-!
# What an allocation writes, and allocating again

The allocation of a program writes the places of its parameters and local variables and the frames
of its procedures, whether or not its bodies are correct. What it writes there does not depend on
what stood there before. So a second allocation, after one that succeeded, leaves the table that it
would have left without the first one.

* `SymbolTable.outline`: a table without places.
* `FramesWritten`: what a successful allocation has written.
* `allocateProcedure_frames`, `allocateProcedures_frames`: one procedure, and several.
* `FramesWritten.eq`: it is written in one way only.
* `allocate_writesFrames`, `allocate_again`: programs.
-/

namespace Spl

open SymbolTable

/-- A scope without places. -/
def Scope.outline (c : Scope) : Scope :=
  { c with entries := c.entries.map fun x => (x.1, x.2.outline) }

/-- A table without places: its scopes, with the names, the kinds and the types of their entries. -/
def SymbolTable.outline (t : SymbolTable) : SymbolTable := ⟨t.scopes.map Scope.outline⟩

variable {A : Prop} {E : Fault → Prop} {leaves : Bool} {S S' : ScopeId → String → Prop}
  {t t' u u' : SymbolTable} {ds l : List ProcDecl} {d : ProcDecl} {P P' : Procedure}

/-! ## Tables by their scopes -/

theorem Scope.get?_outline (c : Scope) (name : String) :
    c.outline.get? name = (c.get? name).map Entry.outline := by
  show (c.entries.map fun x => (x.1, x.2.outline)).lookup name = (c.entries.lookup name).map _
  induction c.entries with
  | nil => rfl
  | cons x xs ih =>
    rw [List.map_cons, lookup_cons_eq_ite, lookup_cons_eq_ite, ih]
    split <;> rfl

theorem Scope.names_outline (c : Scope) : c.outline.names = c.names := by
  simp only [names, outline, List.map_map, Function.comp_def]

namespace SymbolTable

/-- Tables with equal scopes are equal. -/
theorem eq_of_scope (hlen : t'.scopes.length = t.scopes.length)
    (h : ∀ id, t'.scope id = t.scope id) : t' = t := by
  obtain ⟨l⟩ := t
  obtain ⟨l'⟩ := t'
  refine congrArg SymbolTable.mk (List.ext_getElem hlen fun i hi hi' => ?_)
  have hs := h ⟨i⟩
  have hi₁ : i < l'.length := hi
  have hi₂ : i < l.length := hi'
  simpa [scope, hi₁, hi₂] using hs

theorem WritesPlaces.length_eq (h : t.WritesPlaces S t') :
    t'.scopes.length = t.scopes.length := by
  have hlt : ∀ i, i < t'.scopes.length ↔ i < t.scopes.length := fun i => h.hasScope ⟨i⟩
  exact Nat.le_antisymm (Nat.le_of_not_lt fun hc => Nat.lt_irrefl _ ((hlt _).1 hc))
    (Nat.le_of_not_lt fun hc => Nat.lt_irrefl _ ((hlt _).2 hc))

theorem scope_outline (t : SymbolTable) (id : ScopeId) :
    t.outline.scope id = (t.scope id).outline := by
  simp only [scope, outline, List.getElem?_map]
  cases t.scopes[id.index]? <;> rfl

/-- Where only places have been written, and names have kept their order, the outline is the one
before. -/
theorem WritesPlaces.outline_eq (h : t.WritesPlaces S u) (ht : ∀ id, (t.scope id).names.Nodup)
    (hn : ∀ id, (u.scope id).names = (t.scope id).names) : u.outline = t.outline := by
  refine eq_of_scope ?_ fun id => ?_
  · rw [SymbolTable.outline, SymbolTable.outline, List.length_map, List.length_map, h.length_eq]
  · rw [scope_outline, scope_outline]
    refine Scope.eq_of_get? (h.enclosing id) ?_ ?_ fun name => ?_
    · rw [Scope.names_outline, Scope.names_outline, hn]
    · rw [Scope.names_outline]
      exact ht id
    · rw [Scope.get?_outline, Scope.get?_outline, h.outline]

/-- The outlines of procedures are kept. -/
theorem WritesPlaces.procedure?_outline (h : t.WritesPlaces S t') (name : String) :
    (t'.procedure? name).map Procedure.outline = (t.procedure? name).map Procedure.outline := by
  have hproc : ∀ o : Option Entry,
      (o.bind Entry.proc?).map Procedure.outline = (o.map Entry.outline).bind Entry.proc? := by
    rintro (_ | _ | _ | _) <;> rfl
  rw [SymbolTable.procedure?, SymbolTable.procedure?, hproc, hproc, h.outline]

end SymbolTable

/-! ## Outgoing areas -/

/-- The bytes of arguments do not depend on where parameters lie. -/
theorem argumentBytesFrom_outline : ∀ {vs vs' : List Variable} {before : Word},
    vs'.map Variable.outline = vs.map Variable.outline →
    argumentBytesFrom before vs' = argumentBytesFrom before vs
  | [], [], _, _ => rfl
  | v :: vs, v' :: vs', before, h => by
    obtain ⟨hv, hvs⟩ := List.cons.inj h
    have hfootprint : v'.footprint = v.footprint := by
      have hview : v'.view = v.view := Variable.outline_eq_iff.1 hv
      simp only [Variable.view, Prod.mk.injEq] at hview
      rw [Variable.footprint, Variable.footprint, hview.1, hview.2]
    rw [argumentBytesFrom, argumentBytesFrom, hfootprint]
    refine bind_congr fun bytes => bind_congr fun before => ?_
    exact argumentBytesFrom_outline hvs

/-- Nor does the outgoing area. -/
theorem SymbolTable.WritesPlaces.outgoingBytes_eq (h : t.WritesPlaces S t') (cs : List Call) :
    outgoingBytes t' cs = outgoingBytes t cs := by
  have hfrom : ∀ largest,
      outgoingBytesFrom t' largest cs = outgoingBytesFrom t largest cs := by
    induction cs with
    | nil => exact fun _ => rfl
    | cons c cs ih =>
      intro largest
      have ho := h.procedure?_outline c.procedure
      rw [outgoingBytesFrom, outgoingBytesFrom]
      cases hQ : t.procedure? c.procedure with
      | none =>
        rw [hQ, Option.map_none, Option.map_eq_none_iff] at ho
        rw [ho]
      | some Q =>
        rw [hQ, Option.map_some, Option.map_eq_some_iff] at ho
        obtain ⟨Q', hQ', ho⟩ := ho
        have hbytes : Q'.argumentBytes = Q.argumentBytes :=
          argumentBytesFrom_outline (congrArg Procedure.parameters ho)
        rw [hQ']
        dsimp only
        rw [hbytes]
        exact bind_congr fun bytes => ih _
  exact hfrom 0

/-! ## Procedures -/

/-- A procedure with its parameters placed and its frame laid out. -/
def Procedure.framed (leaves : Bool) (d : ProcDecl) (outgoing : Word) (P : Procedure) : Procedure :=
  { P with
    parameters := placedFrom 0 P.parameters
    layout :=
      { argumentArea := some (Int32.ofNat (4 * d.parameters.length))
        localArea := some (Int32.ofNat d.localBytes)
        outgoingArea := some outgoing
        isLeaf := leaves && d.calls.isEmpty } }

theorem placedFrom_outline : ∀ {vs vs' : List Variable} {n : Nat},
    vs'.map Variable.outline = vs.map Variable.outline → placedFrom n vs' = placedFrom n vs
  | [], [], _, _ => rfl
  | v :: vs, v' :: vs', n, h => by
    obtain ⟨hv, hvs⟩ := List.cons.inj h
    rw [placedFrom, placedFrom, placedFrom_outline hvs]
    exact congrArg (· :: _) (Variable.eq_of_outline hv rfl)

/-- What stood in a procedure before does not matter. -/
theorem Procedure.framed_outline {outgoing : Word} (h : P'.outline = P.outline) :
    P'.framed leaves d outgoing = P.framed leaves d outgoing := by
  have hscope : P'.localScope = P.localScope := localScope_eq_of_outline h
  have hbuiltin : P'.isBuiltin = P.isBuiltin := isBuiltin_eq_of_outline h
  have hparameters : placedFrom 0 P'.parameters = placedFrom 0 P.parameters :=
    placedFrom_outline (congrArg Procedure.parameters h)
  simp only [framed, hscope, hbuiltin, hparameters]

/-- The procedure `P` of the table `t` has its places and its frame in the table `u`. -/
structure FrameWritten (leaves : Bool) (t u : SymbolTable) (d : ProcDecl) (P : Procedure) :
    Prop where
  room : 4 * d.parameters.length ≤ Word.maxNat
  procedure : ∃ outgoing, outgoingBytes t d.calls = .ok outgoing ∧
    u.procedure? d.name = some (P.framed leaves d outgoing)
  places : d.VariablesLie (u.local? P.localScope)

/-- Allocating a procedure writes its places and its frame. It succeeds if the arguments that it
takes fit in a word and the procedures that it calls are known. -/
theorem allocateProcedure_frames (hE : ∀ e, SumFault A e → E e) (hH : t.Holds ds)
    (hd : d.head ∈ ds) (hP : t.Declares d P)
    (hroom : 4 * d.parameters.length ≤ Word.maxNat ∨ A)
    (hout : (∃ w, outgoingBytes t d.calls = .ok w) ∨ ∀ e, E e) :
    Ends E (fun _ u => t.WritesPlaces (placesOf d.name P.localScope) u ∧
      FrameWritten leaves t u d P) (allocateProcedure leaves d) t := by
  unfold allocateProcedure
  refine .get_bind ?_
  rw [hP.procedure]
  dsimp only
  refine placeVariables_bind hE hH hP hroom fun localArea t₃ h => ?_
  have hH₃ : t₃.Holds ds := h.writes.holds (not_placesOf_builtin hH hd hP) hH
  refine .get_bind ?_
  rw [h.writes.outgoingBytes_eq]
  cases ho : outgoingBytes t d.calls with
  | error e =>
    rcases hout with ⟨w, hw⟩ | hall
    · rw [ho] at hw
      cases hw
    · exact hall e
  | ok outgoing =>
    refine .lift_bind rfl (.of_modify ?_)
    obtain ⟨hw, hp⟩ := writesPlaces_updateProcedure hH₃.hasScope hH₃.enclosing h.procedure
      (f := ({ · with layout :=
        { argumentArea := some (Int32.ofNat (4 * d.parameters.length))
          localArea := some localArea
          outgoingArea := some outgoing
          isLeaf := leaves && d.calls.isEmpty } })) rfl
    have hlocal : ∀ n, (t₃.updateProcedure d.name _).local? P.localScope n =
        t₃.local? P.localScope n := fun n => hw.local?_of_not fun h => hP.ne_global h.1
    refine ⟨h.writes.trans (hw.mono fun id n h => .inl h), h.room, ⟨outgoing, ho, ?_⟩, ?_⟩
    · rw [hp, h.size]
      rfl
    · rw [funext hlocal]
      exact ⟨h.parameters, h.locals⟩

/-- A frame stays written when places of other procedures are. -/
theorem FrameWritten.of_writesPlaces (h : FrameWritten leaves t u d P) (hw : u.WritesPlaces S u')
    (hS : ∀ id n, placesOf d.name P.localScope id n → ¬S id n) : FrameWritten leaves t u' d P := by
  obtain ⟨outgoing, ho, hp⟩ := h.procedure
  refine ⟨h.room, ⟨outgoing, ho, ?_⟩, ?_⟩
  · rw [hw.procedure?_of_not (hS _ _ (.inl ⟨rfl, rfl⟩)), hp]
  · have hlocal : ∀ n, u'.local? P.localScope n = u.local? P.localScope n := fun n =>
      hw.local?_of_not (hS _ _ (.inr rfl))
    rw [funext hlocal]
    exact h.places

/-- Allocating the procedures `l` has made the table `u` of `t`. -/
structure FramesWritten (leaves : Bool) (t : SymbolTable) (l : List ProcDecl) (u : SymbolTable) :
    Prop where
  writes : t.WritesPlaces (fun id n => ∃ d ∈ l, PlacesIn t d id n) u
  frames : ∀ d ∈ l, ∃ P, t.Declares d P ∧ FrameWritten leaves t u d P

/-- Allocating procedures, one after the other. -/
theorem allocateProcedures_frames (hE : ∀ e, SumFault A e → E e) : ∀ {l : List ProcDecl}
    {t : SymbolTable}, t.Holds ds → (∀ d ∈ l, d.head ∈ ds) → (l.map (·.name)).Nodup →
    (∀ d ∈ l, 4 * d.parameters.length ≤ Word.maxNat ∨ A) →
    (∀ d ∈ l, (∃ w, outgoingBytes t d.calls = .ok w) ∨ ∀ e, E e) →
    Ends E (fun _ u => FramesWritten leaves t l u) (allocateProcedures leaves l) t
  | [], t, _, _, _, _, _ => ⟨.refl t, by simp⟩
  | d :: l, t, hH, hl, hnd, hroom, hout => by
    have hd : d.head ∈ ds := hl d (.head _)
    obtain ⟨P, hP⟩ := hH.declares d.head hd
    have hP : t.Declares d P := declares_head_iff.1 hP
    rw [List.map_cons, List.nodup_cons] at hnd
    unfold allocateProcedures
    refine (allocateProcedure_frames hE hH hd hP (hroom d (.head _)) (hout d (.head _))).bind ?_
    intro _ t₁ h
    obtain ⟨hw, hframe⟩ := h
    have hH₁ : t₁.Holds ds := hw.holds (not_placesOf_builtin hH hd hP) hH
    obtain ⟨P₁, hP₁, ho₁⟩ := hw.declares hP
    refine (allocateProcedures_frames hE hH₁ (fun d' hd' => hl d' (.tail _ hd')) hnd.2
      (fun d' hd' => hroom d' (.tail _ hd')) fun d' hd' => ?_).mono ?_
    · rw [hw.outgoingBytes_eq]
      exact hout d' (.tail _ hd')
    intro _ u h
    -- The procedures that are left have other places than the one before them.
    have hother : ∀ id n, placesOf d.name P.localScope id n → ¬∃ d' ∈ l, PlacesIn t₁ d' id n := by
      rintro id n hp ⟨d', hd', hp'⟩
      rw [← Procedure.localScope_eq_of_outline ho₁] at hp
      have hname := PlacesIn.name_eq hH₁ hd (hl d' (.tail _ hd')) ⟨P₁, hP₁, hp⟩ hp'
      exact hnd.1 (hname ▸ List.mem_map_of_mem hd')
    refine ⟨(hw.mono ?_).trans (h.writes.mono ?_), fun d' hd' => ?_⟩
    · exact fun id n hp => ⟨d, .head _, P, hP, hp⟩
    · intro id n hp
      obtain ⟨d', hd', hp⟩ := hp
      obtain ⟨P', hP'⟩ := hH.declares d'.head (hl d' (.tail _ hd'))
      exact ⟨d', .tail _ hd', .of_writesPlaces hw (declares_head_iff.1 hP') hp⟩
    · rcases List.mem_cons.1 hd' with rfl | hd'
      · exact ⟨P, hP, hframe.of_writesPlaces h.writes hother⟩
      · obtain ⟨P', hP', hroom', ⟨outgoing, hout', hp'⟩, hv'⟩ := h.frames d' hd'
        obtain ⟨Q, hQ⟩ := hH.declares d'.head (hl d' (.tail _ hd'))
        have hQ : t.Declares d' Q := declares_head_iff.1 hQ
        obtain ⟨Q₁, hQ₁, ho⟩ := hw.declares hQ
        obtain rfl := hQ₁.unique hP'
        rw [hw.outgoingBytes_eq] at hout'
        refine ⟨Q, hQ, hroom', ⟨outgoing, hout', ?_⟩, ?_⟩
        · rw [hp', Procedure.framed_outline ho]
        · rw [← Procedure.localScope_eq_of_outline ho]
          exact hv'

/-! ## Programs -/

namespace FramesWritten

/-- What is written does not depend on what stood there before. -/
theorem get?_eq (h : FramesWritten leaves t l u) (h' : FramesWritten leaves t' l u')
    (hw : t.WritesPlaces (fun id n => ∃ d ∈ l, PlacesIn t d id n) t') (id : ScopeId)
    (n : String) : (u'.scope id).get? n = (u.scope id).get? n := by
  by_cases hn : ∃ d ∈ l, PlacesIn t d id n
  · obtain ⟨d, hd, Q, hQ, hn⟩ := hn
    obtain ⟨P, hP, hframe⟩ := h.frames d hd
    obtain rfl := hQ.unique hP
    obtain ⟨P', hP', hframe'⟩ := h'.frames d hd
    obtain ⟨P₁, hP₁, ho⟩ := hw.declares hP
    obtain rfl := hP₁.unique hP'
    have hscope := Procedure.localScope_eq_of_outline ho
    rcases hn with ⟨rfl, rfl⟩ | rfl
    · obtain ⟨outgoing, hout, hp⟩ := hframe.procedure
      obtain ⟨outgoing', hout', hp'⟩ := hframe'.procedure
      rw [hw.outgoingBytes_eq, hout, Except.ok.injEq] at hout'
      rw [procedure?_eq_some_iff.1 hp, procedure?_eq_some_iff.1 hp', ← hout',
        Procedure.framed_outline ho]
    · have houtline : ((u'.scope Q.localScope).get? n).map Entry.outline =
          ((u.scope Q.localScope).get? n).map Entry.outline := by
        rw [h'.writes.outline, hw.outline, h.writes.outline]
      cases he : (u.scope Q.localScope).get? n with
      | none =>
        rw [he, Option.map_none, Option.map_eq_none_iff] at houtline
        exact houtline
      | some e =>
        obtain ⟨e₀, he₀, -⟩ := h.writes.get?_back he
        have hmem := (hP.only n e₀ he₀).1
        obtain ⟨v, v', hv, hv', hoff⟩ := hframe.places.offset_eq hframe'.places hmem
        rw [hscope] at hv'
        rw [local?_eq_some_iff] at hv hv'
        rw [hv, hv', Option.map_some, Option.map_some, Option.some.injEq] at houtline
        rw [he, Option.some.injEq] at hv
        rw [hv', hv, Variable.eq_of_outline (Entry.var.inj houtline) hoff]
  · have hn' : ¬∃ d ∈ l, PlacesIn t' d id n := by
      rintro ⟨d, hd, hp⟩
      obtain ⟨P, hP, -⟩ := h.frames d hd
      exact hn ⟨d, hd, hp.of_writesPlaces hw hP⟩
    rw [h.writes.others id n hn, h'.writes.others id n hn', hw.others id n hn]

/-- Two allocations that begin with the same names in the same order leave the same table. -/
theorem eq (h : FramesWritten leaves t l u) (h' : FramesWritten leaves t' l u')
    (hw : t.WritesPlaces (fun id n => ∃ d ∈ l, PlacesIn t d id n) t')
    (ht : ∀ id, (t.scope id).names.Nodup)
    (hn : ∀ id, (u.scope id).names = (t.scope id).names)
    (hn' : ∀ id, (u'.scope id).names = (t.scope id).names) : u' = u := by
  refine eq_of_scope ?_ fun id => Scope.eq_of_get? ?_ ?_ ?_ (h.get?_eq h' hw id)
  · rw [h'.writes.length_eq, hw.length_eq, h.writes.length_eq]
  · rw [h'.writes.enclosing, hw.enclosing, h.writes.enclosing]
  · rw [hn', hn]
  · rw [hn]
    exact ht id

end FramesWritten

/-- Allocating the program has made the table `u` of `t`: without places, it is the table that it
was, and the only entries that have changed are those of the procedures of the program, and of their
parameters and local variables in their local scopes. -/
structure WritesFrames (p : Program) (t u : SymbolTable) : Prop where
  outline : u.outline = t.outline
  others : ∀ id n, (¬∃ d ∈ p.procedures, ∃ P, t.procedure? d.name = some P ∧
    (id = global ∧ n = d.name ∨ id = P.localScope ∧ n ∈ d.names)) →
    (u.scope id).get? n = (t.scope id).get? n
  builtins : ∀ b ∈ builtins, u.procedure? b.name = t.procedure? b.name

section
variable {p : Program} (hH : t.Holds p.heads)
include hH

theorem nodup_names : (p.procedures.map (·.name)).Nodup := by
  have h := hH.nodup
  rw [Program.heads, List.map_map] at h
  exact h

theorem frames_of_run (h : (allocate leaves p).run t = .ok () u) :
    FramesWritten leaves t p.procedures u := by
  have hends : Ends (fun _ => True) (fun _ u => FramesWritten leaves t p.procedures u)
      (allocate leaves p) t :=
    allocateProcedures_frames (A := True) (fun _ _ => trivial) hH (fun _ hd => mem_heads hd)
      (nodup_names hH) (fun _ _ => .inr trivial) fun _ _ => .inr fun _ => trivial
  exact hends.ok h

/-- What the table holds it still holds. -/
theorem FramesWritten.holds (hf : FramesWritten leaves t p.procedures u) : u.Holds p.heads :=
  hf.writes.holds (fun b hb => by
    rintro ⟨d, hd, P, hP, hp⟩
    exact not_placesOf_builtin hH (mem_heads hd) hP b hb hp) hH

/-- A successful allocation writes only what is its own. -/
theorem allocate_writesFrames (ht : ∀ id, (t.scope id).names.Nodup)
    (h : (allocate leaves p).run t = .ok () u) : WritesFrames p t u := by
  have hf := frames_of_run hH h
  refine ⟨hf.writes.outline_eq ht ((allocate_editsInPlace leaves p t).ok h), fun id n hn => ?_,
    fun b hb => ?_⟩
  · by_cases hp : ∃ d ∈ p.procedures, PlacesIn t d id n
    · obtain ⟨d, hd, P, hP, hp | rfl⟩ := hp
      · exact absurd ⟨d, hd, P, hP.procedure, .inl hp⟩ hn
      · -- The local scope of a procedure has no entries but its variables.
        have hnone : (t.scope P.localScope).get? n = none :=
          Option.eq_none_iff_forall_ne_some.2 fun e he =>
            hn ⟨d, hd, P, hP.procedure, .inr ⟨rfl, (hP.only n e he).1⟩⟩
        have houtline := hf.writes.outline P.localScope n
        rw [hnone, Option.map_none, Option.map_eq_none_iff] at houtline
        rw [houtline, hnone]
    · exact hf.writes.others id n hp
  · rw [procedure?, procedure?, hf.writes.others]
    rintro ⟨d, hd, P, hP, hp⟩
    exact not_placesOf_builtin hH (mem_heads hd) hP b hb hp

/-- After a successful allocation, whatever its leaf setting, another one succeeds, and leaves what
it leaves without the first one. -/
theorem allocate_again (ht : ∀ id, (t.scope id).names.Nodup) {first : Bool} {t₁ : SymbolTable}
    (h : (allocate first p).run t = .ok () t₁) (leaves : Bool) :
    ∃ u, (allocate leaves p).run t = .ok () u ∧ (allocate leaves p).run t₁ = .ok () u := by
  have hf := frames_of_run hH h
  have hH₁ : t₁.Holds p.heads := hf.holds hH
  have hroom : ∀ d ∈ p.procedures, 4 * d.parameters.length ≤ Word.maxNat ∨ False := fun d hd =>
    let ⟨_, _, hframe⟩ := hf.frames d hd
    .inl hframe.room
  have hout : ∀ d ∈ p.procedures, ∃ w, outgoingBytes t d.calls = .ok w := fun d hd =>
    let ⟨_, _, hframe⟩ := hf.frames d hd
    let ⟨w, hw, _⟩ := hframe.procedure
    ⟨w, hw⟩
  have hends : Ends (fun _ => False) (fun _ u => FramesWritten leaves t p.procedures u)
      (allocate leaves p) t :=
    allocateProcedures_frames (A := False) (fun _ he => he.2) hH (fun _ hd => mem_heads hd)
      (nodup_names hH) hroom fun d hd => .inl (hout d hd)
  have hends₁ : Ends (fun _ => False) (fun _ u => FramesWritten leaves t₁ p.procedures u)
      (allocate leaves p) t₁ :=
    allocateProcedures_frames (A := False) (fun _ he => he.2) hH₁ (fun _ hd => mem_heads hd)
      (nodup_names hH) hroom fun d hd => .inl (by rw [hf.writes.outgoingBytes_eq]; exact hout d hd)
  obtain ⟨_, u, hu⟩ := hends.exists_ok
  obtain ⟨_, u₁, hu₁⟩ := hends₁.exists_ok
  have hn := (allocate_editsInPlace first p t).ok h
  refine ⟨u, hu, ?_⟩
  rw [hu₁, (hends.ok hu).eq (hends₁.ok hu₁) hf.writes ht ((allocate_editsInPlace leaves p t).ok hu)
    fun id => ((allocate_editsInPlace leaves p t₁).ok hu₁ id).trans (hn id)]

end

end Spl
