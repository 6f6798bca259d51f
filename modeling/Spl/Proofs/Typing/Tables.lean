import Mathlib.Data.List.Nodup
import Spl.Proofs.Typing.Denotation

/-!
# The table of a program, exactly

Which lists of declarations are well formed, said apart from the pass that enters them, and the
table that a well-formed list describes. The pass accepts exactly the well-formed lists and builds
exactly that table.

* `ProcDecl.HasTypes`, `TypedDecl.AllDenote`, `Program.WellFormed`: well-formed declarations.
* `SymbolTable.declaring`: the table that declarations with their types describe.
* `enterParameters_decides`, `enterLocals_decides`, `enterProcedure_decides`, `enterType_decides`:
  what the pass does with each kind of declaration.
* `enterDeclarations_exact`: programs.
-/

namespace Spl

open SymbolTable

/-! ## Well-formed declarations -/

/-- Declared variables denote types. The name of each hides a type of that name from those after
it, and so do the names `hidden`. -/
inductive VariablesDenote (Γ : Types) : List String → List (Binding TypeExpr) → List Ty → Prop
  | nil {hidden : List String} : VariablesDenote Γ hidden [] []
  | cons {hidden : List String} {b : Binding TypeExpr} {ty : Ty} {bs : List (Binding TypeExpr)}
      {tys : List Ty} :
      b.type.Denotes (Γ.hide hidden) ty → VariablesDenote Γ (hidden ++ [b.name]) bs tys →
      VariablesDenote Γ hidden (b :: bs) (ty :: tys)

/-- The parameters and local variables of a procedure are distinct and denote the given types.
Arrays and records are passed by reference, and the local variables leave room for the linkage. -/
structure ProcDecl.HasTypes (Γ : Types) (d : ProcDecl) (ps ls : List Ty) : Prop where
  distinct : d.names.Nodup
  parameters : VariablesDenote Γ [] (d.parameters.map ParamDecl.toBinding) ps
  byReference : ∀ x ∈ d.parameters.zip ps, x.2.isAggregate = true → x.1.isReference = true
  locals : VariablesDenote Γ (d.parameters.map (·.name)) d.locals ls
  room : Ty.total ls + 8 ≤ Word.maxNat

/-- A declaration together with the types that its type expressions denote. -/
inductive TypedDecl where
  | type (declaration : Binding TypeExpr) (ty : Ty)
  | procedure (declaration : ProcDecl) (parameters locals : List Ty)

namespace TypedDecl

/-- The declaration itself. -/
def decl : TypedDecl → Decl
  | type d _ => .type d
  | procedure d _ _ => .procedure d

/-- The declared name. -/
def name (m : TypedDecl) : String := m.decl.name

/-- A declaration denotes its types. -/
def Denotes (Γ : Types) : TypedDecl → Prop
  | type d ty => d.type.Denotes Γ ty
  | procedure d ps ls => d.HasTypes Γ ps ls

/-- What names denote after a declaration: a declared type can be named. -/
def extend (Γ : Types) : TypedDecl → Types
  | type d ty => Γ.declare d.name ty
  | procedure .. => Γ

/-- Declarations denote their types, each after those before it. -/
inductive AllDenote : Types → List TypedDecl → Prop
  | nil {Γ : Types} : AllDenote Γ []
  | cons {Γ : Types} {m : TypedDecl} {ms : List TypedDecl} :
      m.Denotes Γ → AllDenote (m.extend Γ) ms → AllDenote Γ (m :: ms)

end TypedDecl

/-- The declared names are new and distinct, all declarations denote types, and the entry point is
a procedure without parameters. -/
structure Program.WellFormed (entry : String) (p : Program) : Prop where
  distinct : ("int" :: "bool" :: builtins.map Builtin.name ++ p.declarations.map Decl.name).Nodup
  denotes : ∃ ms : List TypedDecl, ms.map TypedDecl.decl = p.declarations ∧
    TypedDecl.AllDenote .primitive ms
  entry : ∃ d ∈ p.procedures, d.name = entry ∧ d.parameters = []

/-! ## The table -/

namespace ProcDecl

/-- The parameters of a procedure, with their types. -/
def parameterVariables (bs : List ParamDecl) (tys : List Ty) : List (String × Variable) :=
  List.zipWith (fun b ty => (b.name, { type := ty, isReference := b.isReference })) bs tys

/-- The local variables of a procedure, with their types. -/
def localVariables (bs : List (Binding TypeExpr)) (tys : List Ty) : List (String × Variable) :=
  List.zipWith (fun b ty => (b.name, { type := ty, isReference := false })) bs tys

/-- A procedure for the types of its parameters and local variables. -/
def annotate (d : ProcDecl) (parameters locals : List Ty) : ProcDecl :=
  { d with
    parameters := List.zipWith (fun b ty => { b with type := b.type.annotate ty })
      d.parameters parameters
    locals := List.zipWith (fun b ty => { b with type := b.type.annotate ty }) d.locals locals }

end ProcDecl

/-- The scope of the given variables inside the global one. -/
def localScope (vs : List (String × Variable)) : Scope :=
  { enclosing := [global], entries := vs.map fun x => (x.1, .var x.2) }

namespace TypedDecl

/-- The declaration with its types in the slots of its type expressions. -/
def tree : TypedDecl → Decl
  | type d ty => .type { d with type := d.type.annotate ty }
  | procedure d ps ls => .procedure (d.annotate ps ls)

/-- The global entry of a declaration. A procedure gets the local scope with the number `next`. -/
def entry (next : Nat) : TypedDecl → Entry
  | type _ ty => .type ty
  | procedure d ps _ =>
    .proc { localScope := ⟨next⟩
            parameters := (ProcDecl.parameterVariables d.parameters ps).map Prod.snd }

/-- The local scope of a procedure. -/
def scopes : TypedDecl → List Scope
  | type .. => []
  | procedure d ps ls =>
    [localScope (ProcDecl.parameterVariables d.parameters ps ++
      ProcDecl.localVariables d.locals ls)]

/-- The global entries of declarations. The local scopes of procedures are numbered from `next`. -/
def entries (next : Nat) : List TypedDecl → List (String × Entry)
  | [] => []
  | m :: ms => (m.name, m.entry next) :: entries (next + m.scopes.length) ms

end TypedDecl

namespace SymbolTable

/-- The table with the given global entries and the given other scopes. -/
def tableOf (entries : List (String × Entry)) (inner : List Scope) : SymbolTable :=
  ⟨{ entries } :: inner⟩

/-- The predefined table with the entries and local scopes of declarations. -/
def declaring (ms : List TypedDecl) : SymbolTable :=
  tableOf ((predefined.scope global).entries ++ TypedDecl.entries predefined.scopes.length ms)
    (predefined.scopes.tail ++ ms.flatMap TypedDecl.scopes)

end SymbolTable

/-! ## Tables by their entries -/

/-- The types among global entries. -/
def typesOf (g : List (String × Entry)) : Types := fun name =>
  match g.lookup name with
  | some (.type ty) => some ty
  | _ => none

variable {g : List (String × Entry)} {inner : List Scope} {vs : List (String × Variable)}

theorem lookup_eq_none_iff {α : Type} {l : List (String × α)} {name : String} :
    l.lookup name = none ↔ name ∉ l.map Prod.fst := by
  rw [← Scope.lookup_isSome_iff, Option.not_isSome_iff_eq_none]

namespace SymbolTable

theorem newScope_tableOf (g : List (String × Entry)) (inner : List Scope) :
    (tableOf g inner).newScope global =
      (⟨inner.length + 1⟩, tableOf g (inner ++ [localScope []])) := rfl

theorem scope_tableOf_last (c : Scope) :
    (tableOf g (inner ++ [c])).scope ⟨inner.length + 1⟩ = c := by
  simp [tableOf, scope]

theorem modifyScope_tableOf_last (c : Scope) (f : Scope → Scope) :
    (tableOf g (inner ++ [c])).modifyScope ⟨inner.length + 1⟩ f = tableOf g (inner ++ [f c]) := by
  have hm : ∀ l : List Scope, (l ++ [c]).modify l.length f = l ++ [f c] := fun l => by
    induction l with
    | nil => rfl
    | cons a l ih => rw [List.cons_append, List.length_cons, List.modify_succ_cons, ih]; rfl
  exact congrArg (tableOf g) (hm inner)

theorem types_tableOf : (tableOf g inner).types global = typesOf g := by
  funext name
  unfold types typesOf
  rw [find?_global rfl]
  rfl

theorem find?_tableOf_last (name : String) :
    (tableOf g (inner ++ [localScope vs])).find? ⟨inner.length + 1⟩ name =
      ((vs.lookup name).map Entry.var).or (g.lookup name) := by
  have hl : (vs.map fun x => (x.1, Entry.var x.2)).lookup name =
      (vs.lookup name).map Entry.var := by
    induction vs with
    | nil => rfl
    | cons x vs ih =>
      rw [List.map_cons, Scope.lookup_cons_eq_ite, Scope.lookup_cons_eq_ite, ih]
      split <;> rfl
  have hv : ((tableOf g (inner ++ [localScope vs])).scope ⟨inner.length + 1⟩).get? name =
      (vs.lookup name).map Entry.var := by
    rw [scope_tableOf_last, ← hl]
    rfl
  have hg : ((tableOf g (inner ++ [localScope vs])).scope global).get? name = g.lookup name := rfl
  have hc : (tableOf g (inner ++ [localScope vs])).chain ⟨inner.length + 1⟩ =
      [⟨inner.length + 1⟩, global] := by
    rw [chain, scope_tableOf_last]
    rfl
  rw [find?, hc, List.findSome?_cons, List.findSome?_cons, hv, hg, List.findSome?_nil]
  cases vs.lookup name with
  | some v => rfl
  | none => cases g.lookup name <;> rfl

/-- In a local scope, the names of its variables denote no type. -/
theorem types_tableOf_last :
    (tableOf g (inner ++ [localScope vs])).types ⟨inner.length + 1⟩ =
      (typesOf g).hide (vs.map Prod.fst) := by
  funext name
  unfold types Types.hide
  rw [find?_tableOf_last]
  cases hv : vs.lookup name with
  | some v =>
    have hmem : name ∈ vs.map Prod.fst := Scope.lookup_isSome_iff.1 (by rw [hv]; rfl)
    rw [if_pos hmem]
    rfl
  | none =>
    rw [if_neg (lookup_eq_none_iff.1 hv)]
    rfl

/-- A type expression in a local scope denotes what it denotes where the variables hide types. -/
theorem resolve_last_decides (hΓ : (typesOf g).Fit) {e : TypeExpr} (h : e.isFresh = true) :
    e.Found ((typesOf g).hide (vs.map Prod.fst))
      (e.resolve (tableOf g (inner ++ [localScope vs])) ⟨inner.length + 1⟩) := by
  rw [← types_tableOf_last]
  refine e.resolve_decides ?_ h
  rw [types_tableOf_last]
  exact hΓ.hide _

theorem resolve_global_decides (hΓ : (typesOf g).Fit) {e : TypeExpr} (h : e.isFresh = true) :
    e.Found (typesOf g) (e.resolve (tableOf g inner) global) := by
  have ht : (tableOf g inner).types global = typesOf g := types_tableOf
  rw [← ht]
  refine e.resolve_decides ?_ h
  rw [ht]
  exact hΓ

theorem enterNew_global_decides (name : String) (e : Entry) (p : Position) (cause : SemanticError) :
    Decides (fun t => name ∉ g.map Prod.fst ∧ t = tableOf (g ++ [(name, e)]) inner)
      (fun _ => name ∈ g.map Prod.fst) (enterNew (tableOf g inner) global name e p cause) := by
  unfold enterNew enter?
  have hd : ((tableOf g inner).scope global).declares name = (g.lookup name).isSome := rfl
  rw [hd]
  by_cases h : (g.lookup name).isSome = true
  · rw [if_pos h]
    exact Scope.lookup_isSome_iff.1 h
  · rw [if_neg h]
    exact ⟨fun hm => h (Scope.lookup_isSome_iff.2 hm), rfl⟩

theorem enterNew_last_decides (name : String) (v : Variable) (p : Position)
    (cause : SemanticError) :
    Decides (fun t => name ∉ vs.map Prod.fst ∧
        t = tableOf g (inner ++ [localScope (vs ++ [(name, v)])]))
      (fun _ => name ∈ vs.map Prod.fst)
      (enterNew (tableOf g (inner ++ [localScope vs])) ⟨inner.length + 1⟩ name (.var v) p
        cause) := by
  unfold enterNew enter?
  have hn : (localScope vs).entries.map Prod.fst = vs.map Prod.fst := by
    simp [localScope]
  have hd : ((tableOf g (inner ++ [localScope vs])).scope ⟨inner.length + 1⟩).declares name = true ↔
      name ∈ vs.map Prod.fst := by
    rw [scope_tableOf_last, Scope.declares, Scope.get?, Scope.lookup_isSome_iff, hn]
  by_cases h : name ∈ vs.map Prod.fst
  · rw [if_pos (hd.2 h)]
    exact h
  · rw [if_neg fun hc => h (hd.1 hc)]
    exact ⟨h, by rw [modifyScope_tableOf_last]; simp [localScope, Scope.add]⟩

end SymbolTable

/-! ## Parameters -/

theorem nodup_append_cons_iff {names : List String} {name : String} {rest : List String} :
    (names ++ name :: rest).Nodup ↔ name ∉ names ∧ (names ++ [name] ++ rest).Nodup := by
  rw [List.append_assoc, List.singleton_append]
  refine ⟨fun h => ⟨fun hm => ?_, h⟩, fun h => h.2⟩
  exact (List.nodup_append.1 h).2.2 name hm name (.head _) rfl

/-- The parameters `bs` denote types after the variables `names`. -/
structure ParametersDenote (Γ : Types) (names : List String) (bs : List ParamDecl)
    (tys : List Ty) : Prop where
  distinct : (names ++ bs.map (·.name)).Nodup
  denote : VariablesDenote Γ names (bs.map ParamDecl.toBinding) tys
  byReference : ∀ x ∈ bs.zip tys, x.2.isAggregate = true → x.1.isReference = true

/-- The parameter `b` denotes a type after the variables `names`. -/
structure ParameterDenotes (Γ : Types) (names : List String) (b : ParamDecl) (ty : Ty) : Prop where
  new : b.name ∉ names
  denotes : b.type.Denotes (Γ.hide names) ty
  byReference : ty.isAggregate = true → b.isReference = true

theorem parametersDenote_cons_iff {Γ : Types} {names : List String} {b : ParamDecl}
    {bs : List ParamDecl} {ty : Ty} {tys : List Ty} :
    ParametersDenote Γ names (b :: bs) (ty :: tys) ↔
      ParameterDenotes Γ names b ty ∧ ParametersDenote Γ (names ++ [b.name]) bs tys := by
  constructor
  · rintro ⟨hn, hd, hr⟩
    obtain ⟨hnew, hn⟩ := nodup_append_cons_iff.1 hn
    cases hd with
    | cons hty htys =>
      exact ⟨⟨hnew, hty, hr _ (.head _)⟩, hn, htys, fun x hx => hr x (.tail _ hx)⟩
  · rintro ⟨⟨hnew, hty, hr⟩, hn, htys, hrs⟩
    refine ⟨nodup_append_cons_iff.2 ⟨hnew, hn⟩, .cons hty htys, fun x hx => ?_⟩
    rcases List.mem_cons.1 hx with rfl | hx
    · exact hr
    · exact hrs x hx

/-- The variable that a parameter declares. -/
def ParamDecl.variable (b : ParamDecl) (ty : Ty) : Variable :=
  { type := ty, isReference := b.isReference }

/-- Entering a parameter adds its variable, if it denotes a type. -/
theorem enterParameter_decides (hΓ : (typesOf g).Fit) {b : ParamDecl} (h : b.type.isFresh = true) :
    (enterParameter ⟨inner.length + 1⟩ (tableOf g (inner ++ [localScope vs])) b).Decides
      (fun s v => ∃ ty, ParameterDenotes (typesOf g) (vs.map Prod.fst) b ty ∧
        s = (tableOf g (inner ++ [localScope (vs ++ [(b.name, b.variable ty)])]),
          { b with type := b.type.annotate ty }) ∧ v = b.variable ty)
      fun _ _ => ∀ ty, ¬ParameterDenotes (typesOf g) (vs.map Prod.fst) b ty := by
  unfold enterParameter
  refine (resolve_last_decides hΓ h).andThen
    (fun _ _ hno ty hty => hno ty hty.denotes) fun e ty hty => ?_
  obtain ⟨hty, rfl⟩ := hty
  have hone : ∀ ty', ParameterDenotes (typesOf g) (vs.map Prod.fst) b ty' → ty' = ty :=
    fun ty' h' => h'.denotes.unique hty
  have he : Decides (fun t' => ParameterDenotes (typesOf g) (vs.map Prod.fst) b ty ∧
        t' = tableOf g (inner ++ [localScope (vs ++ [(b.name, b.variable ty)])]))
      (fun _ => ∀ ty, ¬ParameterDenotes (typesOf g) (vs.map Prod.fst) b ty) (do
        if ty.isAggregate ∧ ¬b.isReference then
          Failure.report b.position (.aggregateByValue b.name)
        enterNew (tableOf g (inner ++ [localScope vs])) ⟨inner.length + 1⟩ b.name
          (.var (b.variable ty)) b.position (.redeclaredAsParameter b.name)) := by
    by_cases hagg : ty.isAggregate ∧ ¬b.isReference
    · rw [if_pos hagg]
      intro ty' h'
      cases hone ty' h'
      exact hagg.2 (h'.byReference hagg.1)
    · rw [if_neg hagg]
      refine (enterNew_last_decides b.name (b.variable ty) b.position _).mono ?_ ?_
      · intro t' ht'
        exact ⟨⟨ht'.1, hty, fun ha => by_contra fun hr => hagg ⟨ha, hr⟩⟩, ht'.2⟩
      · intro _ hmem ty' h'
        exact h'.new hmem
  dsimp only
  split
  · next t' hx =>
    unfold ParamDecl.variable at he
    rw [hx] at he
    obtain ⟨hd, rfl⟩ := he
    exact ⟨ty, hd, rfl, rfl⟩
  · next f hx =>
    unfold ParamDecl.variable at he
    rw [hx] at he
    exact he

theorem map_fst_concat (vs : List (String × Variable)) (name : String) (v : Variable) :
    (vs ++ [(name, v)]).map Prod.fst = vs.map Prod.fst ++ [name] := by
  rw [List.map_append]
  rfl

/-- Entering parameters adds their variables in order, if all of them denote types. -/
theorem enterParameters_decides (hΓ : (typesOf g).Fit) :
    ∀ (bs : List ParamDecl) (vs : List (String × Variable)), (vs.map Prod.fst).Nodup →
      (∀ b ∈ bs, b.type.isFresh = true) →
      (Visit.thread (enterParameter ⟨inner.length + 1⟩) (tableOf g (inner ++ [localScope vs]))
          bs).Decides
        (fun s sig => ∃ tys, ParametersDenote (typesOf g) (vs.map Prod.fst) bs tys ∧
          s = (tableOf g (inner ++ [localScope (vs ++ ProcDecl.parameterVariables bs tys)]),
            List.zipWith (fun b ty => { b with type := b.type.annotate ty }) bs tys) ∧
          sig = (ProcDecl.parameterVariables bs tys).map Prod.snd)
        fun _ _ => ∀ tys, ¬ParametersDenote (typesOf g) (vs.map Prod.fst) bs tys
  | [], vs, hn, _ => by
    refine ⟨[], ⟨by simpa using hn, .nil, fun _ hx => nomatch hx⟩, ?_, rfl⟩
    rw [ProcDecl.parameterVariables, List.zipWith_nil_left, List.append_nil]
    rfl
  | b :: bs, vs, hn, h => by
    unfold Visit.thread
    refine (enterParameter_decides hΓ (h b (.head _))).andThen (fun _ _ hno tys hb => ?_)
      fun s v hb => ?_
    · cases tys with
      | nil => cases hb.denote
      | cons ty tys => exact hno ty (parametersDenote_cons_iff.1 hb).1
    obtain ⟨ty, hb, rfl, rfl⟩ := hb
    have hn' : ((vs ++ [(b.name, b.variable ty)]).map Prod.fst).Nodup := by
      rw [map_fst_concat, ← List.concat_eq_append]
      exact List.Nodup.concat hb.new hn
    have ih := enterParameters_decides hΓ bs (vs ++ [(b.name, b.variable ty)]) hn'
      fun b' hb' => h b' (.tail _ hb')
    rw [map_fst_concat] at ih
    refine .map (.mapTree (ih.mono ?_ ?_))
    · intro s sig hs
      obtain ⟨tys, hbs, rfl, rfl⟩ := hs
      refine ⟨ty :: tys, parametersDenote_cons_iff.2 ⟨hb, hbs⟩, ?_, rfl⟩
      rw [List.append_assoc]
      rfl
    · intro _ _ hno tys hbs
      cases tys with
      | nil => cases hbs.denote
      | cons ty' tys =>
        obtain ⟨hb', hbs⟩ := parametersDenote_cons_iff.1 hbs
        exact hno tys hbs

/-! ## Local variables -/

/-- The local variables `bs` denote types after the variables `names`, and with the `before` bytes
of local variables before them they leave room for the linkage. -/
structure LocalsDenote (Γ : Types) (names : List String) (before : Nat)
    (bs : List (Binding TypeExpr)) (tys : List Ty) : Prop where
  distinct : (names ++ bs.map (·.name)).Nodup
  denote : VariablesDenote Γ names bs tys
  room : before + Ty.total tys + 8 ≤ Word.maxNat

/-- The local variable `b` denotes a type after the variables `names`, and leaves room for the
linkage. -/
structure LocalDenotes (Γ : Types) (names : List String) (before : Nat) (b : Binding TypeExpr)
    (ty : Ty) : Prop where
  new : b.name ∉ names
  denotes : b.type.Denotes (Γ.hide names) ty
  room : before + ty.bytes + 8 ≤ Word.maxNat

theorem localsDenote_cons_iff {Γ : Types} {names : List String} {before : Nat}
    {b : Binding TypeExpr} {bs : List (Binding TypeExpr)} {ty : Ty} {tys : List Ty} :
    LocalsDenote Γ names before (b :: bs) (ty :: tys) ↔
      LocalDenotes Γ names before b ty ∧
        LocalsDenote Γ (names ++ [b.name]) (before + ty.bytes) bs tys := by
  constructor
  · rintro ⟨hn, hd, hr⟩
    obtain ⟨hnew, hn⟩ := nodup_append_cons_iff.1 hn
    rw [Ty.total] at hr
    cases hd with
    | cons hty htys => exact ⟨⟨hnew, hty, by omega⟩, hn, htys, by omega⟩
  · rintro ⟨⟨hnew, hty, -⟩, hn, htys, hr⟩
    refine ⟨nodup_append_cons_iff.2 ⟨hnew, hn⟩, .cons hty htys, ?_⟩
    rw [Ty.total]
    omega

/-- A total passes its check exactly if it leaves room for the linkage. -/
theorem addLocalSize_decides (procedure : String) (p : Position) {before size : Word} {m n : Nat}
    (hm : before.toInt = m) (hn : size.toInt = n) :
    Decides (fun total : Word => m + n + 8 ≤ Word.maxNat ∧ total.toInt = ((m + n : Nat) : Int))
      (fun _ => ¬m + n + 8 ≤ Word.maxNat) (addLocalSize procedure p before size) := by
  by_cases h : m + n + 8 ≤ Word.maxNat
  · have hs : Word.InRange (before.toInt + size.toInt) := by
      unfold Word.InRange Word.maxNat at *
      omega
    obtain ⟨total, ht, ht'⟩ := Word.sum_of_inRange hs
    have h8 : linkageBytes.toInt = 8 := rfl
    have hl : Word.InRange (total.toInt + linkageBytes.toInt) := by
      unfold Word.InRange Word.maxNat at *
      omega
    obtain ⟨w, hw, -⟩ := Word.sum_of_inRange hl
    unfold addLocalSize
    rw [ht]
    dsimp only
    rw [hw]
    exact ⟨h, by rw [ht', hm, hn]; rfl⟩
  · cases hx : addLocalSize procedure p before size with
    | error f => exact h
    | ok total =>
      have hmeets := addLocalSize_meets (A := True) procedure p hm hn
      exact absurd (hmeets.of_ok hx).2 h

/-- Entering a local variable adds it, and its bytes to the total, if it denotes a type. -/
theorem enterLocal_decides (hΓ : (typesOf g).Fit) (procedure : String) {b : Binding TypeExpr}
    (h : b.type.isFresh = true) {total : Word} {before : Nat} (ht : total.toInt = before) :
    (enterLocal procedure ⟨inner.length + 1⟩
        (tableOf g (inner ++ [localScope vs]), total) b).Decides
      (fun s _ => ∃ ty, LocalDenotes (typesOf g) (vs.map Prod.fst) before b ty ∧
        s.1.1 = tableOf g (inner ++
          [localScope (vs ++ [(b.name, { type := ty, isReference := false })])]) ∧
        s.1.2.toInt = ((before + ty.bytes : Nat) : Int) ∧
        s.2 = { b with type := b.type.annotate ty })
      fun _ _ => ∀ ty, ¬LocalDenotes (typesOf g) (vs.map Prod.fst) before b ty := by
  unfold enterLocal
  refine (resolve_last_decides hΓ h).andThen
    (fun _ _ hno ty hty => hno ty hty.denotes) fun e ty hty => ?_
  obtain ⟨hty, rfl⟩ := hty
  have hone : ∀ ty', LocalDenotes (typesOf g) (vs.map Prod.fst) before b ty' → ty' = ty :=
    fun ty' h' => h'.denotes.unique hty
  obtain ⟨size, hsize, hsize'⟩ := Ty.byteSize_of_fits (hty.fits (hΓ.hide _))
  dsimp only
  rw [hsize]
  have he : Decides (fun s : SymbolTable × Word =>
        LocalDenotes (typesOf g) (vs.map Prod.fst) before b ty ∧
          s.1 = tableOf g (inner ++
            [localScope (vs ++ [(b.name, { type := ty, isReference := false })])]) ∧
          s.2.toInt = ((before + ty.bytes : Nat) : Int))
      (fun _ => ∀ ty, ¬LocalDenotes (typesOf g) (vs.map Prod.fst) before b ty)
      (enterNew (tableOf g (inner ++ [localScope vs])) ⟨inner.length + 1⟩ b.name
          (.var { type := ty, isReference := false }) b.position (.redeclaredAsVariable b.name) >>=
        fun t' => addLocalSize procedure b.position total size >>= fun total' =>
          pure (t', total')) := by
    refine (enterNew_last_decides b.name _ b.position _).bind (fun t' ht' => ?_)
      fun _ hmem ty' h' => h'.new hmem
    refine (addLocalSize_decides procedure b.position ht hsize').bind (fun total' htotal => ?_)
      fun _ hno ty' h' => ?_
    · exact ⟨⟨ht'.1, hty, htotal.1⟩, ht'.2, htotal.2⟩
    · cases hone ty' h'
      exact hno h'.room
  split
  · next s hx =>
    have hs : Decides _ _ (.ok s) := (congrArg (Spl.Decides _ _) hx).mp he
    exact ⟨ty, hs.1, hs.2.1, hs.2.2, rfl⟩
  · next f hx =>
    exact (congrArg (Spl.Decides _ _) hx).mp he

/-- Entering local variables adds them in order, if all of them denote types and leave room for the
linkage. -/
theorem enterLocals_decides (hΓ : (typesOf g).Fit) (inner : List Scope) (procedure : String) :
    ∀ (bs : List (Binding TypeExpr)) (vs : List (String × Variable)) (total : Word) (before : Nat),
      (vs.map Prod.fst).Nodup → (∀ b ∈ bs, b.type.isFresh = true) → total.toInt = before →
      before + 8 ≤ Word.maxNat →
      (Visit.thread (enterLocal procedure ⟨inner.length + 1⟩)
          (tableOf g (inner ++ [localScope vs]), total) bs).Decides
        (fun s _ => ∃ tys, LocalsDenote (typesOf g) (vs.map Prod.fst) before bs tys ∧
          s.1.1 = tableOf g (inner ++ [localScope (vs ++ ProcDecl.localVariables bs tys)]) ∧
          s.2 = List.zipWith (fun b ty => { b with type := b.type.annotate ty }) bs tys)
        fun _ _ => ∀ tys, ¬LocalsDenote (typesOf g) (vs.map Prod.fst) before bs tys
  | [], vs, total, before, hn, _, _, hroom => by
    refine ⟨[], ⟨by simpa using hn, .nil, hroom⟩, ?_, rfl⟩
    rw [ProcDecl.localVariables, List.zipWith_nil_left, List.append_nil]
    rfl
  | b :: bs, vs, total, before, hn, h, ht, hroom => by
    unfold Visit.thread
    refine (enterLocal_decides hΓ procedure (h b (.head _)) ht).andThen (fun _ _ hno tys hb => ?_)
      fun s _ hb => ?_
    · cases tys with
      | nil => cases hb.denote
      | cons ty tys => exact hno ty (localsDenote_cons_iff.1 hb).1
    obtain ⟨⟨t', total'⟩, b'⟩ := s
    obtain ⟨ty, hb, ht', htotal, hb'⟩ := hb
    dsimp only at ht' htotal hb'
    subst ht' hb'
    have hn' : ((vs ++ [(b.name, { type := ty, isReference := false : Variable })]).map
        Prod.fst).Nodup := by
      rw [map_fst_concat, ← List.concat_eq_append]
      exact List.Nodup.concat hb.new hn
    have ih := enterLocals_decides hΓ inner procedure bs _ total' (before + ty.bytes) hn'
      (fun b' hb' => h b' (.tail _ hb')) htotal hb.room
    rw [map_fst_concat] at ih
    refine .map (.mapTree (ih.mono ?_ ?_))
    · intro s _ hs
      obtain ⟨tys, hbs, hs₁, hs₂⟩ := hs
      refine ⟨ty :: tys, localsDenote_cons_iff.2 ⟨hb, hbs⟩, ?_, congrArg (_ :: ·) hs₂⟩
      rw [hs₁, List.append_assoc]
      rfl
    · intro _ _ hno tys hbs
      cases tys with
      | nil => cases hbs.denote
      | cons ty' tys =>
        obtain ⟨hb', hbs⟩ := localsDenote_cons_iff.1 hbs
        cases hb'.denotes.unique hb.denotes
        exact hno tys hbs

/-! ## Declarations -/

theorem VariablesDenote.length_eq {Γ : Types} {names : List String} {bs : List (Binding TypeExpr)}
    {tys : List Ty} (h : VariablesDenote Γ names bs tys) : bs.length = tys.length := by
  induction h with
  | nil => rfl
  | cons _ _ ih => rw [List.length_cons, List.length_cons, ih]

theorem VariablesDenote.unique {Γ : Types} {names : List String} {bs : List (Binding TypeExpr)}
    {tys tys' : List Ty} (h : VariablesDenote Γ names bs tys)
    (h' : VariablesDenote Γ names bs tys') : tys = tys' := by
  induction h generalizing tys' with
  | nil => cases h'; rfl
  | cons hty _ ih =>
    cases h' with
    | cons hty' htys' => rw [hty.unique hty', ih htys']

/-- The names of declared variables. -/
theorem map_fst_zipWith {β : Type} {f : β → Ty → String × Variable} {name : β → String}
    (hf : ∀ b ty, (f b ty).1 = name b) :
    ∀ {bs : List β} {tys : List Ty}, bs.length = tys.length →
      (List.zipWith f bs tys).map Prod.fst = bs.map name
  | [], _, _ => rfl
  | _ :: _, [], h => nomatch h
  | b :: bs, ty :: tys, h => by
    rw [List.zipWith_cons_cons, List.map_cons, List.map_cons, hf,
      map_fst_zipWith hf (Nat.succ.inj h)]

theorem map_fst_parameterVariables {bs : List ParamDecl} {tys : List Ty}
    (h : bs.length = tys.length) :
    (ProcDecl.parameterVariables bs tys).map Prod.fst = bs.map (·.name) := by
  refine map_fst_zipWith (fun _ _ => ?_) h
  rfl

theorem map_fst_localVariables {bs : List (Binding TypeExpr)} {tys : List Ty}
    (h : bs.length = tys.length) :
    (ProcDecl.localVariables bs tys).map Prod.fst = bs.map (·.name) := by
  refine map_fst_zipWith (fun _ _ => ?_) h
  rfl

namespace ProcDecl

theorem HasTypes.unique {Γ : Types} {d : ProcDecl} {ps ps' ls ls' : List Ty}
    (h : d.HasTypes Γ ps ls) (h' : d.HasTypes Γ ps' ls') : ps = ps' ∧ ls = ls' :=
  ⟨h.parameters.unique h'.parameters, h.locals.unique h'.locals⟩

theorem hasTypes_iff {Γ : Types} {d : ProcDecl} {ps ls : List Ty} :
    d.HasTypes Γ ps ls ↔ ParametersDenote Γ [] d.parameters ps ∧
      LocalsDenote Γ (d.parameters.map (·.name)) 0 d.locals ls := by
  constructor
  · intro h
    refine ⟨⟨(List.nodup_append.1 h.distinct).1, h.parameters, h.byReference⟩, h.distinct,
      h.locals, ?_⟩
    rw [Nat.zero_add]
    exact h.room
  · rintro ⟨hp, hl⟩
    have hroom := hl.room
    rw [Nat.zero_add] at hroom
    exact ⟨hl.distinct, hp.denote, hp.byReference, hl.denote, hroom⟩

end ProcDecl

/-- Entering a procedure adds its entry and its local scope, if its name is new and its variables
denote types. -/
theorem enterProcedure_decides (hΓ : (typesOf g).Fit) {d : ProcDecl} (h : d.isFresh = true) :
    (enterProcedure (tableOf g inner) d).Decides
      (fun d' t' => ∃ ps ls, d.HasTypes (typesOf g) ps ls ∧ d.name ∉ g.map Prod.fst ∧
        d' = d.annotate ps ls ∧
        t' = tableOf (g ++ [(d.name, (TypedDecl.procedure d ps ls).entry (inner.length + 1))])
          (inner ++ (TypedDecl.procedure d ps ls).scopes))
      fun _ _ => ∀ ps ls, d.HasTypes (typesOf g) ps ls → d.name ∈ g.map Prod.fst := by
  simp only [ProcDecl.isFresh, Bool.and_eq_true, List.all_eq_true] at h
  unfold enterProcedure
  rw [newScope_tableOf]
  dsimp only
  refine (enterParameters_decides hΓ d.parameters [] List.nodup_nil h.1.1).andThen
    (fun _ _ hno ps ls hd => absurd (ProcDecl.hasTypes_iff.1 hd).1 (hno ps)) fun s sig hps => ?_
  obtain ⟨ps, hps, rfl, rfl⟩ := hps
  have hnames : ([] ++ ProcDecl.parameterVariables d.parameters ps).map Prod.fst =
      d.parameters.map (·.name) := by
    refine map_fst_parameterVariables ?_
    rw [← hps.denote.length_eq, List.length_map]
  have hnodup : (([] ++ ProcDecl.parameterVariables d.parameters ps).map Prod.fst).Nodup := by
    rw [hnames]
    exact hps.distinct
  have hlocals := enterLocals_decides hΓ inner d.name d.locals
    ([] ++ ProcDecl.parameterVariables d.parameters ps) 0 0 hnodup h.1.2 rfl (by decide)
  rw [hnames] at hlocals
  refine hlocals.andThen (fun _ _ hno ps' ls hd => ?_) fun s _ hls => ?_
  · exact absurd (ProcDecl.hasTypes_iff.1 hd).2 (hno ls)
  obtain ⟨⟨t', total⟩, ls'⟩ := s
  obtain ⟨ls, hls, ht', hls'⟩ := hls
  dsimp only at ht' hls'
  subst ht' hls'
  have hd : d.HasTypes (typesOf g) ps ls := ProcDecl.hasTypes_iff.2 ⟨hps, hls⟩
  refine (enterNew_global_decides d.name _ d.position _).mono (fun t' ht' => ?_)
    fun _ hmem _ _ _ => hmem
  exact ⟨ps, ls, hd, ht'.1, rfl, ht'.2⟩

/-- Entering a type adds its entry, if its name is new and its type expression denotes a type. -/
theorem enterType_decides (hΓ : (typesOf g).Fit) {d : Binding TypeExpr}
    (h : d.type.isFresh = true) :
    (enterType (tableOf g inner) d).Decides
      (fun d' t' => ∃ ty, d.type.Denotes (typesOf g) ty ∧ d.name ∉ g.map Prod.fst ∧
        d' = { d with type := d.type.annotate ty } ∧
        t' = tableOf (g ++ [(d.name, .type ty)]) inner)
      fun _ _ => ∀ ty, d.type.Denotes (typesOf g) ty → d.name ∈ g.map Prod.fst := by
  unfold enterType
  have hf : ((tableOf g inner).find? global d.name).isSome = true ↔ d.name ∈ g.map Prod.fst := by
    rw [find?_global rfl, ← Scope.lookup_isSome_iff]
    rfl
  by_cases hmem : d.name ∈ g.map Prod.fst
  · rw [if_pos (hf.2 hmem)]
    exact fun _ _ => hmem
  · rw [if_neg fun hc => hmem (hf.1 hc)]
    refine (resolve_global_decides hΓ h).andThen
      (fun _ _ hno ty hty => absurd hty (hno ty)) fun e ty hty => ?_
    obtain ⟨hty, rfl⟩ := hty
    refine (enterNew_global_decides d.name (.type ty) d.position _).mono (fun t' ht' => ?_)
      fun _ hmem _ _ => hmem
    exact ⟨ty, hty, hmem, rfl, ht'.2⟩

namespace TypedDecl

variable {Γ : Types} {m m' : TypedDecl} {ms : List TypedDecl}

/-- A declaration denotes its types in one way at most. -/
theorem Denotes.unique (h : m.Denotes Γ) (h' : m'.Denotes Γ) (hd : m.decl = m'.decl) : m = m' := by
  cases m with
  | type d ty =>
    cases m' with
    | type d' ty' =>
      cases hd
      rw [TypeExpr.Denotes.unique h h']
    | procedure d' ps' ls' => cases hd
  | procedure d ps ls =>
    cases m' with
    | type d' ty' => cases hd
    | procedure d' ps' ls' =>
      cases hd
      obtain ⟨rfl, rfl⟩ := ProcDecl.HasTypes.unique h h'
      rfl

theorem fit_extend (hΓ : Γ.Fit) (h : m.Denotes Γ) : (m.extend Γ).Fit := by
  cases m with
  | type d ty => exact hΓ.declare (TypeExpr.Denotes.fits hΓ h)
  | procedure d ps ls => exact hΓ

/-- A new entry extends what names denote. -/
theorem typesOf_concat (h : m.name ∉ g.map Prod.fst) (next : Nat) :
    typesOf (g ++ [(m.name, m.entry next)]) = m.extend (typesOf g) := by
  have hnone := lookup_eq_none_iff.2 h
  funext n
  unfold typesOf
  rw [Scope.lookup_append_singleton]
  by_cases hn : n = m.name
  · subst hn
    rw [hnone, if_pos rfl]
    cases m with
    | type d ty => exact (if_pos rfl).symm
    | procedure d ps ls =>
      show none = typesOf g _
      unfold typesOf
      rw [hnone]
  · rw [if_neg hn, Option.or_none]
    cases m with
    | type d ty => exact (if_neg hn).symm
    | procedure d ps ls => rfl

end TypedDecl

/-- Entering a declaration adds its entry and its local scope, if its name is new and it denotes
types. -/
theorem enterDeclaration_decides (hΓ : (typesOf g).Fit) {d : Decl} (h : d.isFresh = true) :
    (enterDeclaration (tableOf g inner) d).Decides
      (fun s _ => ∃ m : TypedDecl, m.decl = d ∧ m.Denotes (typesOf g) ∧ m.name ∉ g.map Prod.fst ∧
        s = (tableOf (g ++ [(m.name, m.entry (inner.length + 1))]) (inner ++ m.scopes), m.tree))
      fun _ _ => ∀ m : TypedDecl, m.decl = d → m.Denotes (typesOf g) → m.name ∈ g.map Prod.fst := by
  unfold enterDeclaration
  refine Visit.Decides.andThen
    (Q := fun d' t' => ∃ m : TypedDecl, m.decl = d ∧ m.Denotes (typesOf g) ∧
      m.name ∉ g.map Prod.fst ∧ d' = m.tree ∧
      t' = tableOf (g ++ [(m.name, m.entry (inner.length + 1))]) (inner ++ m.scopes))
    (F := fun _ _ => ∀ m : TypedDecl, m.decl = d → m.Denotes (typesOf g) → m.name ∈ g.map Prod.fst)
    ?_ (fun _ _ hno => hno) fun d' t' hd => ?_
  · cases d with
    | type d =>
      refine .mapTree ((enterType_decides hΓ h).mono (fun d' t' hd => ?_) fun _ _ hno m hm hd => ?_)
      · obtain ⟨ty, hty, hnew, rfl, rfl⟩ := hd
        exact ⟨.type d ty, rfl, hty, hnew, rfl, by rw [TypedDecl.scopes, List.append_nil]; rfl⟩
      · cases m with
        | type d' ty => cases hm; exact hno ty hd
        | procedure d' ps ls => cases hm
    | procedure d =>
      refine .mapTree ((enterProcedure_decides hΓ h).mono (fun d' t' hd => ?_)
        fun _ _ hno m hm hd => ?_)
      · obtain ⟨ps, ls, hd, hnew, rfl, rfl⟩ := hd
        exact ⟨.procedure d ps ls, rfl, hd, hnew, rfl, rfl⟩
      · cases m with
        | type d' ty => cases hm
        | procedure d' ps ls => cases hm; exact hno ps ls hd
  · obtain ⟨m, hm, hden, hnew, rfl, rfl⟩ := hd
    exact ⟨m, hm, hden, hnew, rfl⟩

/-- What declarations denote after the global entries `g`, whose names theirs must not repeat. -/
structure TypedDecl.Enters (g : List (String × Entry)) (ds : List Decl) (ms : List TypedDecl) :
    Prop where
  decl : ms.map TypedDecl.decl = ds
  denote : TypedDecl.AllDenote (typesOf g) ms
  distinct : (g.map Prod.fst ++ ds.map Decl.name).Nodup

theorem TypedDecl.enters_cons_iff {g : List (String × Entry)} {m : TypedDecl} {d : Decl}
    {ms : List TypedDecl} {ds : List Decl} (next : Nat) :
    Enters g (d :: ds) (m :: ms) ↔ (m.decl = d ∧ m.Denotes (typesOf g) ∧ m.name ∉ g.map Prod.fst) ∧
      Enters (g ++ [(m.name, m.entry next)]) ds ms := by
  have hmap : (g ++ [(m.name, m.entry next)]).map Prod.fst = g.map Prod.fst ++ [m.name] := by
    rw [List.map_append]
    rfl
  constructor
  · rintro ⟨hdecl, hden, hn⟩
    obtain ⟨rfl, rfl⟩ := List.cons_eq_cons.1 hdecl
    obtain ⟨hnew, hn⟩ := nodup_append_cons_iff.1 hn
    cases hden with
    | cons hm hms =>
      refine ⟨⟨rfl, hm, hnew⟩, rfl, ?_, by rw [hmap]; exact hn⟩
      rw [typesOf_concat hnew]
      exact hms
  · rintro ⟨⟨rfl, hm, hnew⟩, rfl, hden, hn⟩
    rw [hmap] at hn
    rw [typesOf_concat hnew] at hden
    exact ⟨rfl, .cons hm hden, nodup_append_cons_iff.2 ⟨hnew, hn⟩⟩

/-- Entering declarations adds their entries and local scopes in order, if their names are new and
they denote types. -/
theorem enterAll_decides : ∀ (ds : List Decl) (g : List (String × Entry)) (inner : List Scope),
    (typesOf g).Fit → (g.map Prod.fst).Nodup → (∀ d ∈ ds, d.isFresh = true) →
    (Visit.thread enterDeclaration (tableOf g inner) ds).Decides
      (fun s _ => ∃ ms, TypedDecl.Enters g ds ms ∧
        s = (tableOf (g ++ TypedDecl.entries (inner.length + 1) ms)
          (inner ++ ms.flatMap TypedDecl.scopes), ms.map TypedDecl.tree))
      fun _ _ => ∀ ms, ¬TypedDecl.Enters g ds ms
  | [], g, inner, _, hn, _ => by
    refine ⟨[], ⟨rfl, .nil, by simpa using hn⟩, ?_⟩
    rw [TypedDecl.entries, List.flatMap_nil, List.append_nil, List.append_nil]
    rfl
  | d :: ds, g, inner, hΓ, hn, h => by
    unfold Visit.thread
    refine (enterDeclaration_decides hΓ (h d (.head _))).andThen (fun _ _ hno ms hms => ?_)
      fun s _ hd => ?_
    · cases ms with
      | nil => cases hms.decl
      | cons m ms =>
        obtain ⟨hm, -⟩ := (TypedDecl.enters_cons_iff 0).1 hms
        exact hm.2.2 (hno m hm.1 hm.2.1)
    obtain ⟨m, hm, hden, hnew, rfl⟩ := hd
    have ih := enterAll_decides ds (g ++ [(m.name, m.entry (inner.length + 1))]) (inner ++ m.scopes)
      (by rw [TypedDecl.typesOf_concat hnew]; exact TypedDecl.fit_extend hΓ hden)
      (by rw [List.map_append, List.map_singleton, ← List.concat_eq_append]
          exact List.Nodup.concat hnew hn)
      fun d' hd' => h d' (.tail _ hd')
    refine .map (.mapTree (ih.mono ?_ ?_))
    · intro s _ hs
      obtain ⟨ms, hms, rfl⟩ := hs
      refine ⟨m :: ms, (TypedDecl.enters_cons_iff _).2 ⟨⟨hm, hden, hnew⟩, hms⟩, ?_⟩
      rw [TypedDecl.entries, List.flatMap_cons, List.append_assoc, List.append_assoc,
        List.length_append, List.map_cons, Nat.add_right_comm]
      rfl
    · intro _ _ hno ms hms
      cases ms with
      | nil => cases hms.decl
      | cons m' ms =>
        obtain ⟨⟨hm', hden', -⟩, hms⟩ := (TypedDecl.enters_cons_iff (inner.length + 1)).1 hms
        cases hden'.unique hden (hm'.trans hm.symm)
        exact hno ms hms

/-! ## Programs -/

theorem mem_procedures {p : Program} {d : ProcDecl} :
    d ∈ p.procedures ↔ .procedure d ∈ p.declarations := by
  unfold Program.procedures
  rw [List.mem_filterMap]
  constructor
  · rintro ⟨e, he, hd⟩
    cases e with
    | type _ => cases hd
    | procedure d' => cases hd; exact he
  · exact fun h => ⟨_, h, rfl⟩

/-- Where the declared names are distinct, the check of the entry point finds the declaration. -/
theorem checkEntry_decides (entry : String) {p : Program}
    (hn : (p.declarations.map Decl.name).Nodup) :
    Decides (fun _ => ∃ d ∈ p.procedures, d.name = entry ∧ d.parameters = [])
      (fun _ => ¬∃ d ∈ p.procedures, d.name = entry ∧ d.parameters = []) (checkEntry entry p) := by
  have hone : ∀ d ∈ p.declarations, d.name = entry → ∀ q ∈ p.procedures, q.name = entry →
      d = .procedure q := fun d hd hde q hq hqe =>
    List.inj_on_of_nodup_map hn hd (mem_procedures.1 hq) (hde.trans hqe.symm)
  unfold checkEntry
  cases hf : p.declarations.find? (·.name = entry) with
  | none =>
    rintro ⟨q, hq, hqe, -⟩
    have hno := List.find?_eq_none.1 hf _ (mem_procedures.1 hq)
    exact hno (decide_eq_true hqe)
  | some d =>
    have hd := List.mem_of_find?_eq_some hf
    have hde : d.name = entry := by simpa using List.find?_some hf
    cases d with
    | type d =>
      rintro ⟨q, hq, hqe, -⟩
      cases hone _ hd hde q hq hqe
    | procedure d =>
      dsimp only
      by_cases hp : d.parameters.isEmpty = true
      · rw [if_pos hp]
        exact ⟨d, mem_procedures.2 hd, hde, List.isEmpty_iff.1 hp⟩
      · rw [if_neg hp]
        rintro ⟨q, hq, hqe, hqp⟩
        cases hone _ hd hde q hq hqe
        exact hp (List.isEmpty_iff.2 hqp)

theorem predefined_eq : predefined = tableOf (predefined.scope global).entries
    predefined.scopes.tail := by decide

theorem names_predefined : (predefined.scope global).entries.map Prod.fst =
    "int" :: "bool" :: builtins.map Builtin.name := by decide

/-- The predefined names of types are those of the primitive types. -/
theorem typesOf_predefined : typesOf (predefined.scope global).entries = .primitive := by
  have hsplit : (predefined.scope global).entries =
      ("int", .type .int) :: ("bool", .type .bool) :: (predefined.scope global).entries.drop 2 := by
    decide
  have hprocs : ∀ x ∈ (predefined.scope global).entries.drop 2, x.2.proc?.isSome = true := by decide
  funext n
  rw [hsplit]
  unfold typesOf Types.primitive
  rw [Scope.lookup_cons_eq_ite, Scope.lookup_cons_eq_ite]
  by_cases hint : n = "int"
  · rw [if_pos hint, if_pos hint]
  rw [if_neg hint, if_neg hint]
  by_cases hbool : n = "bool"
  · rw [if_pos hbool, if_pos hbool]
  rw [if_neg hbool, if_neg hbool]
  cases hl : ((predefined.scope global).entries.drop 2).lookup n with
  | none => rfl
  | some e =>
    have he := hprocs _ (mem_of_lookup hl)
    cases e with
    | type _ => cases he
    | var _ => rfl
    | proc _ => rfl

/-- The declarations of a fresh program are entered exactly if they are well formed. -/
theorem enterDeclarations_decides (entry : String) {p : Program} (h : p.isFresh = true) :
    (enterDeclarations entry p).Decides
      (fun q t => p.WellFormed entry ∧ ∃ ms : List TypedDecl,
        ms.map TypedDecl.decl = p.declarations ∧ TypedDecl.AllDenote .primitive ms ∧
        t = declaring ms ∧ q = { p with declarations := ms.map TypedDecl.tree })
      fun _ _ => ¬p.WellFormed entry := by
  simp only [Program.isFresh, List.all_eq_true] at h
  have hnodup : ((predefined.scope global).entries.map Prod.fst).Nodup := by decide
  have hall := enterAll_decides p.declarations (predefined.scope global).entries
    predefined.scopes.tail (by rw [typesOf_predefined]; exact Types.fit_primitive) hnodup h
  rw [← predefined_eq] at hall
  unfold enterDeclarations
  refine hall.andThen (fun _ _ hno hw => ?_) fun s _ hs => ?_
  · obtain ⟨ms, hdecl, hden⟩ := hw.denotes
    refine hno ms ⟨hdecl, by rw [typesOf_predefined]; exact hden, ?_⟩
    rw [names_predefined]
    exact hw.distinct
  obtain ⟨ms, hms, rfl⟩ := hs
  have hden : TypedDecl.AllDenote .primitive ms := by
    rw [← typesOf_predefined]
    exact hms.denote
  have hdistinct := hms.distinct
  rw [names_predefined] at hdistinct
  refine (checkEntry_decides entry (List.nodup_append.1 hdistinct).2.1).bind (fun _ he => ?_)
    fun _ hno hw => hno hw.entry
  exact ⟨⟨hdistinct, ⟨ms, hms.decl, hden⟩, he⟩, ms, hms.decl, hden, rfl, rfl⟩

/-- Entering the declarations of a fresh program succeeds exactly if they are well formed. The table
then consists of the predefined entries, the entries of the declarations in order, and a local scope
with the parameters and the local variables of each procedure in order. All types are those that the
type expressions denote, and they stand in the slots of the expressions. -/
theorem enterDeclarations_exact (entry : String) {p : Program} (h : p.isFresh = true) :
    ((∃ t, (enterDeclarations entry p).answer = .ok t) ↔ p.WellFormed entry) ∧
      ∀ t, (enterDeclarations entry p).answer = .ok t → ∃ ms : List TypedDecl,
        ms.map TypedDecl.decl = p.declarations ∧ TypedDecl.AllDenote .primitive ms ∧
        t = declaring ms ∧
        (enterDeclarations entry p).tree = { p with declarations := ms.map TypedDecl.tree } := by
  have hd := enterDeclarations_decides entry h
  refine ⟨⟨?_, fun hw => ?_⟩, fun t ht => (hd.of_ok ht).2⟩
  · rintro ⟨t, ht⟩
    exact (hd.of_ok ht).1
  · cases ha : (enterDeclarations entry p).answer with
    | ok t => exact ⟨t, rfl⟩
    | error f => exact absurd hw (hd.of_error ha)

section
open Build

/-- A program in which a local variable has the name of a type that was used before. -/
def shadowing : Program := program [
  typeDecl "vec" (arrayType 3 intType),
  procDecl "first" [refParam "v" (namedType "vec"), refParam "i" intType] [varDecl "vec" intType] [
    assign (named "i") (var (index (named "v") (int 0)))],
  procDecl "main" [] [varDecl "v" (namedType "vec"), varDecl "i" intType] [
    call "first" [var (named "v"), var (named "i")]]]

/-- It is well formed, but not with a procedure that has parameters as its entry point. -/
theorem enterDeclarations_exact_shadowing : shadowing.isFresh = true ∧
    shadowing.WellFormed "main" ∧ ¬shadowing.WellFormed "first" := by
  have hf : shadowing.isFresh = true := by decide +kernel
  have hok : (enterDeclarations "main" shadowing).answer.toBool = true := by decide +kernel
  have hno : (enterDeclarations "first" shadowing).answer.toBool = false := by decide +kernel
  refine ⟨hf, (enterDeclarations_exact "main" hf).1.1 ?_, fun hw => ?_⟩
  · cases ht : (enterDeclarations "main" shadowing).answer with
    | ok t => exact ⟨t, rfl⟩
    | error f => rw [ht] at hok; cases hok
  · obtain ⟨t, ht⟩ := (enterDeclarations_exact "first" hf).1.2 hw
    rw [ht] at hno
    cases hno

end

end Spl
