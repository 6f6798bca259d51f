import Spl.Proofs.Json.Shape
import Spl.Proofs.Tree.Bare
import Spl.Tree.OfJson
import Spl.Tree.ToJson

/-!
# Spellings of trees

The JSON format of trees allows many spellings of one tree. Each node may be spelled in its own way:
its fields in any order or as an array, without parts that have their default values, with fields
that mean nothing to it, and an operator with a `null`.

* `Program.Spelled p v`: `v` is a spelling of `p`; likewise of each kind of node.
* `Program.program?_eq`: a spelling is read as the tree with empty slots; likewise of each kind of
  node.
* `Program.spelled_toJson`: a tree written in full is one of its spellings.
* `spellings_read`: all spellings of all trees.
-/

namespace Spl

open Json (Part Form Kind Name ListOf required text integer)

/-! ## Spellings -/

namespace Position

/-- The parts of a position. -/
def parts (p : Position) : List Part :=
  [required "line" (integer p.line.toNat), required "column" (integer p.column.toNat)]

/-- The spellings of a position. -/
def Spelled (p : Position) : Json → Prop := Form p.parts

/-- The position of a node, which may be left out if it is `0:0`. -/
def part (p : Position) : Part where
  name := "position"
  spells := p.Spelled
  mayLack := p = {}

end Position

/-- The spellings of a binary operator. -/
def BinaryOp.Spelled (op : BinaryOp) (v : Json) : Prop :=
  ∃ tag, op.toJson = .string tag ∧ Name tag v

/-- The spellings of a unary operator. -/
def UnaryOp.Spelled (op : UnaryOp) (v : Json) : Prop :=
  ∃ tag, op.toJson = .string tag ∧ Name tag v

/-- The parts of a name bound to a type expression. -/
def Binding.partsOf (p : Position) (name : String) (type : Json → Prop) : List Part :=
  [p.part, required "name" (text name), required "type_expression" type]

namespace TypeExpr

mutual

/-- The spellings of a type expression. -/
def Spelled : TypeExpr → Json → Prop
  | .named p name _ => Kind "Named" [p.part, required "name" (text name)]
  | .array p size base _ =>
    Kind "Array" [p.part, required "size" (integer size.toNat), required "base" base.Spelled]
  | .record p fields _ =>
    Kind "Record" [p.part, required "fields" fun v => ∃ vs, v = .array vs ∧ SpelledFields fields vs]

/-- The spellings of the fields of a record type. -/
def SpelledFields : List (Binding TypeExpr) → List Json → Prop
  | [], vs => vs = []
  | ⟨p, name, type⟩ :: fields, vs => ∃ v vs', vs = v :: vs' ∧
    Form (Binding.partsOf p name type.Spelled) v ∧ SpelledFields fields vs'

end

end TypeExpr

mutual

/-- The spellings of an expression. -/
def Expr.Spelled : Expr → Json → Prop
  | .binary p op left right _ => Kind "Binary"
    [p.part, required "operator" op.Spelled, required "left" left.Spelled,
      required "right" right.Spelled]
  | .unary p op operand _ => Kind "Unary"
    [p.part, required "operator" op.Spelled, required "operand" operand.Spelled]
  | .literal p value _ => Kind "IntLiteral" [p.part, required "value" (integer value.toInt)]
  | .designator p target _ => Kind "Variable" [p.part, required "variable" target.Spelled]

/-- The spellings of a designator. -/
def Designator.Spelled : Designator → Json → Prop
  | .named p name _ => Kind "Named" [p.part, required "name" (text name)]
  | .element p whole index _ => Kind "ArrayAccess"
    [p.part, required "array" whole.Spelled, required "index" index.Spelled]
  | .field p whole name _ => Kind "FieldAccess"
    [p.part, required "record" whole.Spelled, required "field" (text name)]

end

/-- The part of a list of nodes, which may be left out if the list is empty. -/
def listPart {α : Type} (name : String) (Spelled : α → Json → Prop) (as : List α) : Part where
  name
  spells := ListOf Spelled as
  mayLack := as = []

namespace Call

/-- The parts of a call. -/
def parts (c : Call) : List Part :=
  [c.position.part, required "procedure" (text c.procedure),
    listPart "arguments" Expr.Spelled c.arguments]

end Call

namespace Stmt

mutual

/-- The spellings of a statement. -/
def Spelled : Stmt → Json → Prop
  | .assign p target value => Kind "Assign"
    [p.part, required "target" target.Spelled, required "value" value.Spelled]
  | .ifElse p condition thenPart elsePart => Kind "If"
    [p.part, required "condition" condition.Spelled, required "then_part" thenPart.Spelled,
      required "else_part" elsePart.Spelled]
  | .whileDo p condition body => Kind "While"
    [p.part, required "condition" condition.Spelled, required "body" body.Spelled]
  | .call c => Kind "Call" c.parts
  | .compound p statements => Kind "Compound"
    [p.part, required "statements" fun v => ∃ vs, v = .array vs ∧ SpelledList statements vs]
  | .empty p => Kind "Empty" p.parts

/-- The spellings of a list of statements. -/
def SpelledList : List Stmt → List Json → Prop
  | [], vs => vs = []
  | s :: ss, vs => ∃ v vs', vs = v :: vs' ∧ s.Spelled v ∧ SpelledList ss vs'

end

end Stmt

namespace Binding

/-- The spellings of a name bound to a type expression. -/
def Spelled (b : Binding TypeExpr) : Json → Prop :=
  Form (partsOf b.position b.name b.type.Spelled)

end Binding

namespace ParamDecl

/-- The spellings of the declaration of a parameter, which is a value parameter if nothing else is
written. -/
def Spelled (d : ParamDecl) : Json → Prop :=
  Form (Binding.partsOf d.position d.name d.type.Spelled ++
    [{ name := "is_reference", spells := (· = .bool d.isReference),
       mayLack := d.isReference = false }])

end ParamDecl

namespace ProcDecl

/-- The parts of the declaration of a procedure. -/
def parts (d : ProcDecl) : List Part :=
  [d.position.part, required "name" (text d.name),
    listPart "parameters" ParamDecl.Spelled d.parameters,
    listPart "variables" Binding.Spelled d.locals, listPart "body" Stmt.Spelled d.body]

end ProcDecl

/-- The spellings of a declaration. -/
def Decl.Spelled : Decl → Json → Prop
  | .type d => Kind "Type" (Binding.partsOf d.position d.name d.type.Spelled)
  | .procedure d => Kind "Procedure" d.parts

/-- The spellings of a program. -/
def Program.Spelled (p : Program) : Json → Prop :=
  Form [p.position.part, required "declarations" (ListOf Decl.Spelled p.declarations)]

/-! ## Reading -/

theorem Position.position?_eq {p : Position} {v : Json} {levels : Nat} (h : p.Spelled v)
    (hd : v.depth ≤ levels) : Json.position? levels v = some p := by
  cases levels with
  | zero => exact absurd (Nat.le_trans h.depth_pos hd) (by decide)
  | succ levels =>
    obtain ⟨found, hparts, _ | ⟨hline, _ | ⟨hcolumn, ⟨⟩⟩⟩⟩ :=
      h.exists_parts ["line", "column"] rfl (by decide) hd
    simp only [Json.position?, hparts, Option.bind_eq_bind, Option.bind_some,
      Json.required?_uint32 hline, Json.required?_uint32 hcolumn]
    rfl

theorem Position.positionPart?_eq {p : Position} {levels : Nat} {found : Option Json}
    (h : p.part.Found levels found) : Json.positionPart? levels found = some p :=
  Json.optional?_eq h id fun _ => position?_eq

theorem BinaryOp.binaryOp?_eq {op : BinaryOp} {v : Json} {levels : Nat} (h : op.Spelled v)
    (hd : v.depth ≤ levels) : Json.binaryOp? levels v = some op := by
  obtain ⟨tag, htag, hname⟩ := h
  simp only [Json.binaryOp?, Json.tag?_eq hname hd]
  cases op with
  | arith op | compare op => cases op <;> cases htag <;> rfl

theorem UnaryOp.unaryOp?_eq {op : UnaryOp} {v : Json} {levels : Nat} (h : op.Spelled v)
    (hd : v.depth ≤ levels) : Json.unaryOp? levels v = some op := by
  obtain ⟨tag, htag, hname⟩ := h
  simp only [Json.unaryOp?, Json.tag?_eq hname hd]
  cases op
  cases htag
  rfl

theorem Json.required?_word {value : Word} {name : String} {levels : Nat} {found : Option Json}
    (h : (required name (integer value.toInt)).Found levels found) :
    Json.required? Json.word? found = some value :=
  Json.required?_eq h fun _ hv _ => (congrArg Json.word? hv).trans (Word.ofInt?_eq_some_iff.2 rfl)

theorem Binding.binding?_of_form {p : Position} {name : String} {spells : Json → Prop}
    {type : TypeExpr} {v : Json} {levels : Nat} (h : Form (partsOf p name spells) v)
    (hd : v.depth ≤ levels)
    (hread : ∀ {v levels}, spells v → v.depth ≤ levels → Json.typeExpr? levels v = some type) :
    Json.binding? levels v = some ⟨p, name, type⟩ := by
  cases levels with
  | zero => exact absurd (Nat.le_trans h.depth_pos hd) (by decide)
  | succ levels =>
    obtain ⟨found, hparts, _ | ⟨hposition, _ | ⟨hname, _ | ⟨htype, ⟨⟩⟩⟩⟩⟩ :=
      h.exists_parts ["position", "name", "type_expression"] rfl (by decide) hd
    simp only [Json.binding?, hparts, Option.bind_eq_bind, Option.bind_some,
      Position.positionPart?_eq hposition, Json.required?_text hname,
      Json.required?_eq htype fun _ => hread]
    rfl

namespace TypeExpr

mutual

theorem typeExpr?_eq : ∀ (t : TypeExpr) {v : Json} {levels : Nat}, t.Spelled v →
    v.depth ≤ levels → Json.typeExpr? levels v = some t.bare
  | .named p name slot, v, levels, h, hd => by
    unfold Spelled at h
    obtain ⟨inner, body, found, rfl, rfl, hparts, _ | ⟨hposition, _ | ⟨hname, ⟨⟩⟩⟩⟩ :=
      h.exists_parts ["position", "name"] rfl (by decide) hd
    simp only [Json.typeExpr?, Json.variant?, hparts, Option.bind_eq_bind, Option.bind_some,
      Position.positionPart?_eq hposition, Json.required?_text hname]
    rfl
  | .array p size base slot, v, levels, h, hd => by
    unfold Spelled at h
    obtain ⟨inner, body, found, rfl, rfl, hparts,
        _ | ⟨hposition, _ | ⟨hsize, _ | ⟨hbase, ⟨⟩⟩⟩⟩⟩ :=
      h.exists_parts ["position", "size", "base"] rfl (by decide) hd
    simp only [Json.typeExpr?, Json.variant?, hparts, Option.bind_eq_bind, Option.bind_some,
      Position.positionPart?_eq hposition, Json.required?_uint32 hsize,
      Json.required?_eq hbase fun _ => typeExpr?_eq base]
    rfl
  | .record p fields slot, v, levels, h, hd => by
    unfold Spelled at h
    obtain ⟨inner, body, found, rfl, rfl, hparts, _ | ⟨hposition, _ | ⟨hfields, ⟨⟩⟩⟩⟩ :=
      h.exists_parts ["position", "fields"] rfl (by decide) hd
    obtain ⟨inner, vs, rfl, rfl, hvs, hd⟩ := Json.exists_array hfields
    simp only [Json.typeExpr?, Json.variant?, hparts, Option.bind_eq_bind, Option.bind_some,
      Position.positionPart?_eq hposition, Json.required?,
      Json.elements?_eq (bindings?_eq fields hvs hd)]
    rfl

theorem bindings?_eq : ∀ (fields : List (Binding TypeExpr)) {vs : List Json} {levels : Nat},
    SpelledFields fields vs → Json.depthOfElements vs ≤ levels →
    List.Forall₂ (fun b v => Json.binding? levels v = some b) (bareFields fields) vs
  | [], vs, levels, h, hd => by
    cases h
    exact .nil
  | ⟨p, name, type⟩ :: fields, vs, levels, h, hd => by
    obtain ⟨v, vs, rfl, hform, h⟩ := h
    obtain ⟨hv, hvs⟩ := Nat.max_le.1 hd
    exact .cons (Binding.binding?_of_form hform hv (typeExpr?_eq type)) (bindings?_eq fields h hvs)

end

end TypeExpr

theorem Binding.binding?_eq (b : Binding TypeExpr) {v : Json} {levels : Nat} (h : b.Spelled v)
    (hd : v.depth ≤ levels) : Json.binding? levels v = some b.bare :=
  binding?_of_form h hd b.type.typeExpr?_eq

mutual

theorem Expr.expr?_eq : ∀ (e : Expr) {v : Json} {levels : Nat}, e.Spelled v →
    v.depth ≤ levels → Json.expr? levels v = some e.bare
  | .binary p op left right slot, v, levels, h, hd => by
    unfold Expr.Spelled at h
    obtain ⟨inner, body, found, rfl, rfl, hparts,
        _ | ⟨hposition, _ | ⟨hop, _ | ⟨hleft, _ | ⟨hright, ⟨⟩⟩⟩⟩⟩⟩ :=
      h.exists_parts ["position", "operator", "left", "right"] rfl (by decide) hd
    simp only [Json.expr?, Json.variant?, hparts, Option.bind_eq_bind, Option.bind_some,
      Position.positionPart?_eq hposition, Json.required?_eq hop fun _ => BinaryOp.binaryOp?_eq,
      Json.required?_eq hleft fun _ => left.expr?_eq,
      Json.required?_eq hright fun _ => right.expr?_eq]
    rfl
  | .unary p op operand slot, v, levels, h, hd => by
    unfold Expr.Spelled at h
    obtain ⟨inner, body, found, rfl, rfl, hparts,
        _ | ⟨hposition, _ | ⟨hop, _ | ⟨hoperand, ⟨⟩⟩⟩⟩⟩ :=
      h.exists_parts ["position", "operator", "operand"] rfl (by decide) hd
    simp only [Json.expr?, Json.variant?, hparts, Option.bind_eq_bind, Option.bind_some,
      Position.positionPart?_eq hposition, Json.required?_eq hop fun _ => UnaryOp.unaryOp?_eq,
      Json.required?_eq hoperand fun _ => operand.expr?_eq]
    rfl
  | .literal p value slot, v, levels, h, hd => by
    unfold Expr.Spelled at h
    obtain ⟨inner, body, found, rfl, rfl, hparts, _ | ⟨hposition, _ | ⟨hvalue, ⟨⟩⟩⟩⟩ :=
      h.exists_parts ["position", "value"] rfl (by decide) hd
    simp only [Json.expr?, Json.variant?, hparts, Option.bind_eq_bind, Option.bind_some,
      Position.positionPart?_eq hposition, Json.required?_word hvalue]
    rfl
  | .designator p target slot, v, levels, h, hd => by
    unfold Expr.Spelled at h
    obtain ⟨inner, body, found, rfl, rfl, hparts, _ | ⟨hposition, _ | ⟨htarget, ⟨⟩⟩⟩⟩ :=
      h.exists_parts ["position", "variable"] rfl (by decide) hd
    simp only [Json.expr?, Json.variant?, hparts, Option.bind_eq_bind, Option.bind_some,
      Position.positionPart?_eq hposition,
      Json.required?_eq htarget fun _ => target.designator?_eq]
    rfl

theorem Designator.designator?_eq : ∀ (d : Designator) {v : Json} {levels : Nat}, d.Spelled v →
    v.depth ≤ levels → Json.designator? levels v = some d.bare
  | .named p name slot, v, levels, h, hd => by
    unfold Designator.Spelled at h
    obtain ⟨inner, body, found, rfl, rfl, hparts, _ | ⟨hposition, _ | ⟨hname, ⟨⟩⟩⟩⟩ :=
      h.exists_parts ["position", "name"] rfl (by decide) hd
    simp only [Json.designator?, Json.variant?, hparts, Option.bind_eq_bind, Option.bind_some,
      Position.positionPart?_eq hposition, Json.required?_text hname]
    rfl
  | .element p whole index slot, v, levels, h, hd => by
    unfold Designator.Spelled at h
    obtain ⟨inner, body, found, rfl, rfl, hparts,
        _ | ⟨hposition, _ | ⟨hwhole, _ | ⟨hindex, ⟨⟩⟩⟩⟩⟩ :=
      h.exists_parts ["position", "array", "index"] rfl (by decide) hd
    simp only [Json.designator?, Json.variant?, hparts, Option.bind_eq_bind, Option.bind_some,
      Position.positionPart?_eq hposition, Json.required?_eq hwhole fun _ => whole.designator?_eq,
      Json.required?_eq hindex fun _ => index.expr?_eq]
    rfl
  | .field p whole name slot, v, levels, h, hd => by
    unfold Designator.Spelled at h
    obtain ⟨inner, body, found, rfl, rfl, hparts,
        _ | ⟨hposition, _ | ⟨hwhole, _ | ⟨hname, ⟨⟩⟩⟩⟩⟩ :=
      h.exists_parts ["position", "record", "field"] rfl (by decide) hd
    simp only [Json.designator?, Json.variant?, hparts, Option.bind_eq_bind, Option.bind_some,
      Position.positionPart?_eq hposition, Json.required?_eq hwhole fun _ => whole.designator?_eq,
      Json.required?_text hname]
    rfl

end

/-- A list of nodes is read if each spelling of each of them is. -/
theorem Json.listPart?_eq {α : Type} {name : String} {Spelled : α → Json → Prop} {as : List α}
    {form? : Nat → Json → Option α} {f : α → α} {levels : Nat} {found : Option Json}
    (h : (listPart name Spelled as).Found levels found)
    (hread : ∀ a ∈ as, ∀ {v levels}, Spelled a v → v.depth ≤ levels →
      form? levels v = some (f a)) :
    Json.listPart? form? levels found = some (as.map f) := by
  cases found with
  | none =>
    rw [show as = [] from h]
    cases levels <;> rfl
  | some v =>
    obtain ⟨⟨vs, rfl, hvs⟩, hd⟩ := h
    cases levels with
    | zero => cases hd
    | succ levels =>
      exact elements?_map hvs (Nat.le_of_succ_le_succ hd) fun a ha v hv => hread a ha hv

theorem Call.call?_eq (c : Call) {v : Json} {levels : Nat} (h : Form c.parts v)
    (hd : v.depth ≤ levels) : Json.call? levels v = some c.bare := by
  cases levels with
  | zero => exact absurd (Nat.le_trans h.depth_pos hd) (by decide)
  | succ levels =>
    obtain ⟨found, hparts, _ | ⟨hposition, _ | ⟨hprocedure, _ | ⟨harguments, ⟨⟩⟩⟩⟩⟩ :=
      h.exists_parts ["position", "procedure", "arguments"] rfl (by decide) hd
    simp only [Json.call?, hparts, Option.bind_eq_bind, Option.bind_some,
      Position.positionPart?_eq hposition, Json.required?_text hprocedure,
      Json.listPart?_eq harguments fun e _ => e.expr?_eq]
    rfl

namespace Stmt

mutual

theorem stmt?_eq : ∀ (s : Stmt) {v : Json} {levels : Nat}, s.Spelled v →
    v.depth ≤ levels → Json.stmt? levels v = some s.bare
  | .assign p target value, v, levels, h, hd => by
    unfold Spelled at h
    obtain ⟨inner, body, found, rfl, rfl, hparts,
        _ | ⟨hposition, _ | ⟨htarget, _ | ⟨hvalue, ⟨⟩⟩⟩⟩⟩ :=
      h.exists_parts ["position", "target", "value"] rfl (by decide) hd
    simp only [Json.stmt?, Json.variant?, hparts, Option.bind_eq_bind, Option.bind_some,
      Position.positionPart?_eq hposition,
      Json.required?_eq htarget fun _ => target.designator?_eq,
      Json.required?_eq hvalue fun _ => value.expr?_eq]
    rfl
  | .ifElse p condition thenPart elsePart, v, levels, h, hd => by
    unfold Spelled at h
    obtain ⟨inner, body, found, rfl, rfl, hparts,
        _ | ⟨hposition, _ | ⟨hcondition, _ | ⟨hthen, _ | ⟨helse, ⟨⟩⟩⟩⟩⟩⟩ :=
      h.exists_parts ["position", "condition", "then_part", "else_part"] rfl (by decide) hd
    simp only [Json.stmt?, Json.variant?, hparts, Option.bind_eq_bind, Option.bind_some,
      Position.positionPart?_eq hposition,
      Json.required?_eq hcondition fun _ => condition.expr?_eq,
      Json.required?_eq hthen fun _ => thenPart.stmt?_eq,
      Json.required?_eq helse fun _ => elsePart.stmt?_eq]
    rfl
  | .whileDo p condition body, v, levels, h, hd => by
    unfold Spelled at h
    obtain ⟨inner, form, found, rfl, rfl, hparts,
        _ | ⟨hposition, _ | ⟨hcondition, _ | ⟨hbody, ⟨⟩⟩⟩⟩⟩ :=
      h.exists_parts ["position", "condition", "body"] rfl (by decide) hd
    simp only [Json.stmt?, Json.variant?, hparts, Option.bind_eq_bind, Option.bind_some,
      Position.positionPart?_eq hposition,
      Json.required?_eq hcondition fun _ => condition.expr?_eq,
      Json.required?_eq hbody fun _ => body.stmt?_eq]
    rfl
  | .call c, v, levels, h, hd => by
    unfold Spelled at h
    obtain ⟨inner, body, rfl, rfl, hform, hd⟩ := h.exists_body hd
    simp only [Json.stmt?, Json.variant?, Option.bind_eq_bind, Option.bind_some,
      c.call?_eq hform hd]
    rfl
  | .compound p statements, v, levels, h, hd => by
    unfold Spelled at h
    obtain ⟨inner, body, found, rfl, rfl, hparts, _ | ⟨hposition, _ | ⟨hstatements, ⟨⟩⟩⟩⟩ :=
      h.exists_parts ["position", "statements"] rfl (by decide) hd
    obtain ⟨inner, vs, rfl, rfl, hvs, hd⟩ := Json.exists_array hstatements
    simp only [Json.stmt?, Json.variant?, hparts, Option.bind_eq_bind, Option.bind_some,
      Position.positionPart?_eq hposition, Json.required?,
      Json.elements?_eq (stmts?_eq statements hvs hd)]
    rfl
  | .empty p, v, levels, h, hd => by
    unfold Spelled at h
    obtain ⟨inner, body, rfl, rfl, hform, hd⟩ := h.exists_body hd
    simp only [Json.stmt?, Json.variant?, Option.bind_eq_bind, Option.bind_some,
      Position.position?_eq hform hd]
    rfl

theorem stmts?_eq : ∀ (ss : List Stmt) {vs : List Json} {levels : Nat},
    SpelledList ss vs → Json.depthOfElements vs ≤ levels →
    List.Forall₂ (fun s v => Json.stmt? levels v = some s) (bareOf ss) vs
  | [], vs, levels, h, hd => by
    cases h
    exact .nil
  | s :: ss, vs, levels, h, hd => by
    obtain ⟨v, vs, rfl, hs, h⟩ := h
    obtain ⟨hv, hvs⟩ := Nat.max_le.1 hd
    exact .cons (stmt?_eq s hs hv) (stmts?_eq ss h hvs)

end

end Stmt

theorem ParamDecl.paramDecl?_eq (d : ParamDecl) {v : Json} {levels : Nat} (h : d.Spelled v)
    (hd : v.depth ≤ levels) : Json.paramDecl? levels v = some d.bare := by
  cases levels with
  | zero => exact absurd (Nat.le_trans h.depth_pos hd) (by decide)
  | succ levels =>
    obtain ⟨found, hparts,
        _ | ⟨hposition, _ | ⟨hname, _ | ⟨htype, _ | ⟨hreference, ⟨⟩⟩⟩⟩⟩⟩ :=
      h.exists_parts ["position", "name", "type_expression", "is_reference"] rfl (by decide) hd
    have hbool : Json.optional? false Json.bool? _ = some d.isReference :=
      Json.optional?_eq hreference id fun _ hv _ => congrArg Json.bool? hv
    simp only [Json.paramDecl?, hparts, Option.bind_eq_bind, Option.bind_some,
      Position.positionPart?_eq hposition, Json.required?_text hname,
      Json.required?_eq htype fun _ => d.type.typeExpr?_eq, hbool]
    rfl

theorem ProcDecl.procDecl?_eq (d : ProcDecl) {v : Json} {levels : Nat} (h : Form d.parts v)
    (hd : v.depth ≤ levels) : Json.procDecl? levels v = some d.bare := by
  cases levels with
  | zero => exact absurd (Nat.le_trans h.depth_pos hd) (by decide)
  | succ levels =>
    obtain ⟨found, hparts,
        _ | ⟨hposition, _ | ⟨hname, _ | ⟨hparameters, _ | ⟨hlocals, _ | ⟨hbody, ⟨⟩⟩⟩⟩⟩⟩⟩ :=
      h.exists_parts ["position", "name", "parameters", "variables", "body"] rfl (by decide) hd
    simp only [Json.procDecl?, hparts, Option.bind_eq_bind, Option.bind_some,
      Position.positionPart?_eq hposition, Json.required?_text hname,
      Json.listPart?_eq hparameters fun d _ => d.paramDecl?_eq,
      Json.listPart?_eq hlocals fun b _ => b.binding?_eq,
      Json.listPart?_eq hbody fun s _ => s.stmt?_eq, ← Stmt.bareOf_eq]
    rfl

theorem Decl.decl?_eq (d : Decl) {v : Json} {levels : Nat} (h : d.Spelled v)
    (hd : v.depth ≤ levels) : Json.decl? levels v = some d.bare := by
  cases d with
  | type d =>
    obtain ⟨inner, body, rfl, rfl, hform, hd⟩ := Kind.exists_body h hd
    simp only [Json.decl?, Json.variant?, Option.bind_eq_bind, Option.bind_some,
      d.binding?_eq hform hd]
    rfl
  | procedure d =>
    obtain ⟨inner, body, rfl, rfl, hform, hd⟩ := Kind.exists_body h hd
    simp only [Json.decl?, Json.variant?, Option.bind_eq_bind, Option.bind_some,
      d.procDecl?_eq hform hd]
    rfl

theorem Program.program?_eq (p : Program) {v : Json} {levels : Nat} (h : p.Spelled v)
    (hd : v.depth ≤ levels) : Json.program? levels v = some p.bare := by
  cases levels with
  | zero => exact absurd (Nat.le_trans h.depth_pos hd) (by decide)
  | succ levels =>
    obtain ⟨found, hparts, _ | ⟨hposition, _ | ⟨hdeclarations, ⟨⟩⟩⟩⟩ :=
      h.exists_parts ["position", "declarations"] rfl (by decide) hd
    obtain ⟨inner, vs, rfl, rfl, hvs, hd⟩ := Json.exists_array hdeclarations
    have hread : Json.listPart? Json.decl? (inner + 1) (some (.array vs)) = _ :=
      Json.elements?_map hvs hd fun d _ _ => d.decl?_eq
    simp only [Json.program?, hparts, Option.bind_eq_bind, Option.bind_some,
      Position.positionPart?_eq hposition, hread]
    rfl

/-! ## Trees written in full -/

theorem Position.spelled_toJson (p : Position) : p.Spelled p.toJson :=
  .full (.keep rfl (.keep rfl .nil))

theorem Kind.node {tag : String} {p : Position} {parts : List Part} {fs : List (String × Json)}
    (h : Json.Fields parts fs) : Kind tag (p.part :: parts) (.node tag p fs) :=
  ⟨_, rfl, .full (.keep p.spelled_toJson h)⟩

theorem BinaryOp.spelled_toJson (op : BinaryOp) : op.Spelled op.toJson := by
  cases op with
  | arith op | compare op => cases op <;> exact ⟨_, rfl, .alone⟩

theorem UnaryOp.spelled_toJson (op : UnaryOp) : op.Spelled op.toJson := by
  cases op
  exact ⟨_, rfl, .alone⟩

namespace TypeExpr

mutual

theorem spelled_toJson : ∀ t : TypeExpr, t.Spelled t.toJson
  | .named _ _ _ => Kind.node (.keep rfl .nil)
  | .array _ _ base _ => Kind.node (.keep rfl (.keep base.spelled_toJson .nil))
  | .record _ fields _ => Kind.node (.keep ⟨_, rfl, spelledFields_toJson fields⟩ .nil)

theorem spelledFields_toJson : ∀ fields, SpelledFields fields (fieldsToJson fields)
  | [] => rfl
  | ⟨p, _, type⟩ :: fields =>
    ⟨_, _, rfl, .full (.keep p.spelled_toJson (.keep rfl (.keep type.spelled_toJson .nil))),
      spelledFields_toJson fields⟩

end

end TypeExpr

mutual

theorem Expr.spelled_toJson : ∀ e : Expr, e.Spelled e.toJson
  | .binary _ op left right _ =>
    Kind.node (.keep op.spelled_toJson
      (.keep left.spelled_toJson (.keep right.spelled_toJson .nil)))
  | .unary _ op operand _ =>
    Kind.node (.keep op.spelled_toJson (.keep operand.spelled_toJson .nil))
  | .literal _ _ _ => Kind.node (.keep rfl .nil)
  | .designator _ target _ => Kind.node (.keep target.spelled_toJson .nil)

theorem Designator.spelled_toJson : ∀ d : Designator, d.Spelled d.toJson
  | .named _ _ _ => Kind.node (.keep rfl .nil)
  | .element _ whole index _ =>
    Kind.node (.keep whole.spelled_toJson (.keep index.spelled_toJson .nil))
  | .field _ whole _ _ => Kind.node (.keep whole.spelled_toJson (.keep rfl .nil))

end

theorem Json.ListOf.map {α : Type} {Spelled : α → Json → Prop} {toJson : α → Json}
    (h : ∀ a, Spelled a (toJson a)) (as : List α) : ListOf Spelled as (.array (as.map toJson)) :=
  ⟨_, rfl, List.forall₂_map_right_iff.2 (List.forall₂_same.2 fun a _ => h a)⟩

namespace Stmt

mutual

theorem spelled_toJson : ∀ s : Stmt, s.Spelled s.toJson
  | .assign _ target value =>
    Kind.node (.keep target.spelled_toJson (.keep value.spelled_toJson .nil))
  | .ifElse _ condition thenPart elsePart =>
    Kind.node (.keep condition.spelled_toJson
      (.keep thenPart.spelled_toJson (.keep elsePart.spelled_toJson .nil)))
  | .whileDo _ condition body =>
    Kind.node (.keep condition.spelled_toJson (.keep body.spelled_toJson .nil))
  | .call c => Kind.node (.keep rfl (.keep (.map Expr.spelled_toJson c.arguments) .nil))
  | .compound _ statements => Kind.node (.keep ⟨_, rfl, spelledList_toJson statements⟩ .nil)
  | .empty p => ⟨_, rfl, p.spelled_toJson⟩

theorem spelledList_toJson : ∀ ss, SpelledList ss (listToJson ss)
  | [] => rfl
  | s :: ss => ⟨_, _, rfl, s.spelled_toJson, spelledList_toJson ss⟩

end

end Stmt

theorem Binding.spelled_toJson (b : Binding TypeExpr) : b.Spelled b.toJson :=
  .full (.keep b.position.spelled_toJson (.keep rfl (.keep b.type.spelled_toJson .nil)))

theorem ParamDecl.spelled_toJson (d : ParamDecl) : d.Spelled d.toJson :=
  .full (.keep d.position.spelled_toJson
    (.keep rfl (.keep d.type.spelled_toJson (.keep rfl .nil))))

theorem ProcDecl.spelled_toJson (d : ProcDecl) : Form d.parts d.toJson :=
  .full (.keep d.position.spelled_toJson (.keep rfl
    (.keep (.map ParamDecl.spelled_toJson d.parameters)
      (.keep (.map Binding.spelled_toJson d.locals)
        (.keep (.map Stmt.spelled_toJson d.body) .nil)))))

theorem Decl.spelled_toJson : ∀ d : Decl, d.Spelled d.toJson
  | .type d => ⟨_, rfl, d.spelled_toJson⟩
  | .procedure d => ⟨_, rfl, d.spelled_toJson⟩

theorem Program.spelled_toJson (p : Program) : p.Spelled p.toJson :=
  .full (.keep p.position.spelled_toJson (.keep (.map Decl.spelled_toJson p.declarations) .nil))

/-- The tree written in full is a spelling, and every spelling is read as the tree with empty
slots. -/
theorem spellings_read (p : Program) :
    p.Spelled p.toJson ∧ p.bare.isFresh = true ∧
      ∀ v, p.Spelled v → Program.ofJson? v = some p.bare :=
  ⟨p.spelled_toJson, p.isFresh_bare, fun _ h => p.program?_eq h (Nat.le_refl _)⟩

/-- A program with one slot that is filled. -/
def assigning : Program :=
  ⟨⟨1, 2⟩, [.procedure {
    name := "main"
    locals := [⟨{}, "x", .named {} "int" {}⟩]
    body := [.assign ⟨3, 4⟩ (.named {} "x" {})
      (.unary {} .minus (.literal {} 5 ⟨some .int⟩) {})] }]⟩

/-- A spelling with fields in another order, fields left out, a field that means nothing, arrays in
place of objects, and an operator with a `null`. -/
def assigningJson : Json :=
  .object [
    ("declarations", .array [.object [("Procedure", .object [
      ("ty", .null),
      ("body", .array [.object [("Assign", .array [
        .array [.int 3, .int 4],
        .object [("Named", .object [("name", .string "x")])],
        .object [("Unary", .object [
          ("operand", .object [("IntLiteral", .object [("value", .int 5)])]),
          ("operator", .object [("Minus", .null)])])]])]]),
      ("variables", .array [.object [
        ("type_expression", .object [("Named", .object [("name", .string "int")])]),
        ("name", .string "x")]]),
      ("name", .string "main")])]]),
    ("position", .object [("column", .int 2), ("line", .int 1)])]

theorem spellings_read_assigning :
    assigning.Spelled assigningJson ∧ assigning.isFresh = false ∧
      Program.ofJson? assigningJson = some assigning.bare := by
  have hliteral : (Expr.literal {} 5 ⟨some .int⟩).Spelled
      (.object [("IntLiteral", .object [("value", .int 5)])]) :=
    ⟨_, rfl, .full (.drop rfl (.keep rfl .nil))⟩
  have hvalue : (Expr.unary {} .minus (.literal {} 5 ⟨some .int⟩) {}).Spelled
      (.object [("Unary", .object [
          ("operand", .object [("IntLiteral", .object [("value", .int 5)])]),
          ("operator", .object [("Minus", .null)])])]) :=
    ⟨_, rfl, .object (.drop rfl (.keep ⟨_, rfl, .withNull⟩ (.keep hliteral .nil)))
      (List.forall_mem_nil _) (.swap _ _ _)⟩
  have hassign : (Stmt.assign ⟨3, 4⟩ (.named {} "x" {})
        (.unary {} .minus (.literal {} 5 ⟨some .int⟩) {})).Spelled
      (.object [("Assign", .array [.array [.int 3, .int 4],
        .object [("Named", .object [("name", .string "x")])],
        .object [("Unary", .object [
          ("operand", .object [("IntLiteral", .object [("value", .int 5)])]),
          ("operator", .object [("Minus", .null)])])]])]) :=
    ⟨_, rfl, .array (.keep (.array (.keep rfl (.keep rfl (.stop (List.forall_mem_nil _)))))
      (.keep ⟨_, rfl, .full (.drop rfl (.keep rfl .nil))⟩
        (.keep hvalue (.stop (List.forall_mem_nil _)))))⟩
  have hlocal : (⟨{}, "x", .named {} "int" {}⟩ : Binding TypeExpr).Spelled
      (.object [("type_expression", .object [("Named", .object [("name", .string "int")])]),
        ("name", .string "x")]) :=
    .object (.drop rfl (.keep rfl (.keep ⟨_, rfl, .full (.drop rfl (.keep rfl .nil))⟩ .nil)))
      (List.forall_mem_nil _) (.swap _ _ _)
  have hunknown : ∀ f ∈ [("ty", Json.null)],
      f.1 ∉ ["position", "name", "parameters", "variables", "body"] := by decide
  have hspelled : assigning.Spelled assigningJson := by
    refine .object (.keep (.object (.keep rfl (.keep rfl .nil)) (List.forall_mem_nil _)
      (.swap _ _ _)) (.keep ⟨_, rfl, .cons ⟨_, rfl, ?_⟩ .nil⟩ .nil))
      (List.forall_mem_nil _) (.swap _ _ _)
    refine .object (.drop rfl (.keep rfl (.drop rfl (.keep ⟨_, rfl, .cons hlocal .nil⟩
      (.keep ⟨_, rfl, .cons hassign .nil⟩ .nil))))) hunknown (List.reverse_perm [_, _, _, _])
  exact ⟨hspelled, by decide +kernel, (spellings_read assigning).2.2 _ hspelled⟩

end Spl
