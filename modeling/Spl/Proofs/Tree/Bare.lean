import Mathlib.Data.List.Forall2
import Spl.Proofs.Tree.Fresh

/-!
# Trees and their slots

A tree consists of what was written and of the slots of its nodes. A pass keeps the first and fills
slots.

* `Program.bare`: the tree with all slots empty; likewise of each kind of node.
* `Program.isFresh_bare`: such a tree is fresh.
* `Program.slots`: the slots of a tree, in a fixed order; likewise of each kind of node.
* `Stmt.isFresh_eq_all`: a fresh statement is one with empty slots.
* `Slotted`: the kinds of trees with slots.
* `Slotted.Kept`: the same tree, in which no filled slot has changed.
* `Slotted.Full`: no slot is empty.
-/

namespace Spl

/-! ## Bare trees -/

namespace TypeExpr

mutual

/-- The type expression with all slots empty. -/
def bare : TypeExpr → TypeExpr
  | .named p name _ => .named p name {}
  | .array p size base _ => .array p size base.bare {}
  | .record p fields _ => .record p (bareFields fields) {}

/-- The fields with all slots empty. -/
def bareFields : List (Binding TypeExpr) → List (Binding TypeExpr)
  | [] => []
  | ⟨p, name, type⟩ :: fields => ⟨p, name, type.bare⟩ :: bareFields fields

end

mutual

/-- The slots of a type expression. -/
def slots : TypeExpr → List TypeSlot
  | .named _ _ slot => [slot]
  | .array _ _ base slot => slot :: base.slots
  | .record _ fields slot => slot :: slotsOf fields

/-- The slots of the types of fields. -/
def slotsOf : List (Binding TypeExpr) → List TypeSlot
  | [] => []
  | ⟨_, _, type⟩ :: fields => type.slots ++ slotsOf fields

end

end TypeExpr

mutual

/-- The expression with all slots empty. -/
def Expr.bare : Expr → Expr
  | .binary p op left right _ => .binary p op left.bare right.bare {}
  | .unary p op operand _ => .unary p op operand.bare {}
  | .literal p value _ => .literal p value {}
  | .designator p target _ => .designator p target.bare {}

/-- The designator with all slots empty. -/
def Designator.bare : Designator → Designator
  | .named p name _ => .named p name {}
  | .element p array index _ => .element p array.bare index.bare {}
  | .field p record name _ => .field p record.bare name {}

end

mutual

/-- The slots of an expression. -/
def Expr.slots : Expr → List TypeSlot
  | .binary _ _ left right slot => slot :: (left.slots ++ right.slots)
  | .unary _ _ operand slot => slot :: operand.slots
  | .literal _ _ slot => [slot]
  | .designator _ target slot => slot :: target.slots

/-- The slots of a designator. -/
def Designator.slots : Designator → List TypeSlot
  | .named _ _ slot => [slot]
  | .element _ array index slot => slot :: (array.slots ++ index.slots)
  | .field _ record _ slot => slot :: record.slots

end

namespace Call

/-- The call with all slots empty. -/
def bare (c : Call) : Call := { c with arguments := c.arguments.map Expr.bare }

/-- The slots of the arguments of a call. -/
def slots (c : Call) : List TypeSlot := c.arguments.flatMap Expr.slots

end Call

namespace Stmt

mutual

/-- The statement with all slots empty. -/
def bare : Stmt → Stmt
  | .assign p target value => .assign p target.bare value.bare
  | .ifElse p condition thenPart elsePart =>
    .ifElse p condition.bare thenPart.bare elsePart.bare
  | .whileDo p condition body => .whileDo p condition.bare body.bare
  | .call c => .call c.bare
  | .compound p statements => .compound p (bareOf statements)
  | .empty p => .empty p

/-- The statements with all slots empty. -/
def bareOf : List Stmt → List Stmt
  | [] => []
  | s :: ss => s.bare :: bareOf ss

end

mutual

/-- The slots of a statement. -/
def slots : Stmt → List TypeSlot
  | .assign _ target value => target.slots ++ value.slots
  | .ifElse _ condition thenPart elsePart =>
    condition.slots ++ (thenPart.slots ++ elsePart.slots)
  | .whileDo _ condition body => condition.slots ++ body.slots
  | .call c => c.slots
  | .compound _ statements => slotsOf statements
  | .empty _ => []

/-- The slots of statements. -/
def slotsOf : List Stmt → List TypeSlot
  | [] => []
  | s :: ss => s.slots ++ slotsOf ss

end

end Stmt

namespace Binding

/-- The declared name with all slots of its type empty. -/
def bare (b : Binding TypeExpr) : Binding TypeExpr := { b with type := b.type.bare }

/-- The slots of the type of a declared name. -/
def slots (b : Binding TypeExpr) : List TypeSlot := b.type.slots

end Binding

namespace ParamDecl

/-- The parameter with all slots of its type empty. -/
def bare (d : ParamDecl) : ParamDecl := { d with type := d.type.bare }

/-- The slots of the type of a parameter. -/
def slots (d : ParamDecl) : List TypeSlot := d.type.slots

end ParamDecl

namespace ProcDecl

/-- The procedure with all slots empty. -/
def bare (d : ProcDecl) : ProcDecl :=
  { d with
    parameters := d.parameters.map ParamDecl.bare
    locals := d.locals.map Binding.bare
    body := Stmt.bareOf d.body }

/-- The slots of a procedure. -/
def slots (d : ProcDecl) : List TypeSlot :=
  d.parameters.flatMap ParamDecl.slots ++ (d.locals.flatMap Binding.slots ++ Stmt.slotsOf d.body)

end ProcDecl

namespace Decl

/-- The declaration with all slots empty. -/
def bare : Decl → Decl
  | .type d => .type d.bare
  | .procedure d => .procedure d.bare

/-- The slots of a declaration. -/
def slots : Decl → List TypeSlot
  | .type d => d.slots
  | .procedure d => d.slots

end Decl

namespace Program

/-- The program with all slots empty. -/
def bare (p : Program) : Program := { p with declarations := p.declarations.map Decl.bare }

/-- The slots of all type expressions, expressions and designators of a program. -/
def slots (p : Program) : List TypeSlot := p.declarations.flatMap Decl.slots

end Program

/-! ## Filling -/

/-- The type in a slot is still there. -/
def TypeSlot.Keeps (slot slot' : TypeSlot) : Prop :=
  ∀ ty, slot.type? = some ty → slot'.type? = some ty

theorem TypeSlot.Keeps.refl (slot : TypeSlot) : slot.Keeps slot := fun _ h => h

/-- The types in a list of slots are still there. -/
def SlotsKept : List TypeSlot → List TypeSlot → Prop := List.Forall₂ TypeSlot.Keeps

namespace SlotsKept

variable {ss ss' us us' vs : List TypeSlot}

theorem refl (ss : List TypeSlot) : SlotsKept ss ss := List.forall₂_same.2 fun s _ => .refl s

theorem trans (h : SlotsKept ss us) (h' : SlotsKept us vs) : SlotsKept ss vs := by
  induction h generalizing vs with
  | nil => exact h'
  | cons hs _ ih =>
    cases h' with
    | cons hs' h' => exact .cons (fun ty hty => hs' ty (hs ty hty)) (ih h')

theorem append (h : SlotsKept ss ss') (h' : SlotsKept us us') :
    SlotsKept (ss ++ us) (ss' ++ us') := List.rel_append h h'

theorem flatMap {τ : Type} {slots : τ → List TypeSlot} {xs ys : List τ}
    (h : List.Forall₂ (fun x y => SlotsKept (slots x) (slots y)) xs ys) :
    SlotsKept (xs.flatMap slots) (ys.flatMap slots) := by
  induction h with
  | nil => exact .nil
  | cons h _ ih => exact h.append ih

end SlotsKept

/-- A kind of trees with slots. -/
class Slotted (τ : Type) where
  /-- The tree with all slots empty. -/
  bare : τ → τ
  /-- The slots of a tree, in a fixed order. -/
  slots : τ → List TypeSlot

instance : Slotted TypeExpr := ⟨TypeExpr.bare, TypeExpr.slots⟩
instance : Slotted Expr := ⟨Expr.bare, Expr.slots⟩
instance : Slotted Designator := ⟨Designator.bare, Designator.slots⟩
instance : Slotted Call := ⟨Call.bare, Call.slots⟩
instance : Slotted Stmt := ⟨Stmt.bare, Stmt.slots⟩
instance : Slotted (Binding TypeExpr) := ⟨Binding.bare, Binding.slots⟩
instance : Slotted ParamDecl := ⟨ParamDecl.bare, ParamDecl.slots⟩
instance : Slotted ProcDecl := ⟨ProcDecl.bare, ProcDecl.slots⟩
instance : Slotted Decl := ⟨Decl.bare, Decl.slots⟩
instance : Slotted Program := ⟨Program.bare, Program.slots⟩

instance {τ : Type} [Slotted τ] : Slotted (List τ) :=
  ⟨List.map Slotted.bare, List.flatMap Slotted.slots⟩

namespace Slotted

variable {τ : Type} [Slotted τ] {x y z : τ} {xs ys : List τ}

/-- The same tree, in which no filled slot has changed. -/
structure Kept (x y : τ) : Prop where
  bare : Slotted.bare y = Slotted.bare x
  slots : SlotsKept (Slotted.slots x) (Slotted.slots y)

/-- No slot of the tree is empty. -/
def Full (x : τ) : Prop := ∀ s ∈ Slotted.slots x, s.type?.isSome

namespace Kept

theorem refl (x : τ) : Kept x x := ⟨rfl, .refl _⟩

theorem trans (h : Kept x y) (h' : Kept y z) : Kept x z :=
  ⟨h'.bare.trans h.bare, h.slots.trans h'.slots⟩

theorem nil : Kept ([] : List τ) [] := .refl []

theorem cons (h : Kept x y) (hs : Kept xs ys) : Kept (x :: xs) (y :: ys) :=
  ⟨congrArg₂ List.cons h.bare hs.bare, h.slots.append hs.slots⟩

end Kept

theorem Full.cons (h : Full x) (hs : Full xs) : Full (x :: xs) := by
  intro s hs'
  rcases List.mem_append.1 hs' with hs' | hs'
  · exact h s hs'
  · exact hs s hs'

end Slotted

open Slotted

theorem TypeExpr.bareFields_eq : ∀ fields, TypeExpr.bareFields fields = fields.map Binding.bare
  | [] => rfl
  | _ :: fields => congrArg (_ :: ·) (bareFields_eq fields)

theorem TypeExpr.slotsOf_eq : ∀ fields, TypeExpr.slotsOf fields = fields.flatMap Binding.slots
  | [] => rfl
  | ⟨_, _, type⟩ :: fields => congrArg (type.slots ++ ·) (slotsOf_eq fields)

theorem Stmt.bareOf_eq : ∀ ss, Stmt.bareOf ss = ss.map Stmt.bare
  | [] => rfl
  | s :: ss => congrArg (s.bare :: ·) (bareOf_eq ss)

theorem Stmt.slotsOf_eq : ∀ ss, Stmt.slotsOf ss = ss.flatMap Stmt.slots
  | [] => rfl
  | s :: ss => congrArg (s.slots ++ ·) (slotsOf_eq ss)

namespace Stmt

mutual

/-- Emptying the slots keeps the calls of a statement, in their order. -/
theorem calls_bare : ∀ s : Stmt, s.bare.calls = s.calls.map Call.bare
  | .assign .. => by rw [bare, calls, calls, List.map_nil]
  | .ifElse _ _ thenPart elsePart => by
    rw [bare, calls, calls, calls_bare thenPart, calls_bare elsePart, List.map_append]
  | .whileDo _ _ body => by rw [bare, calls, calls, calls_bare body]
  | .call _ => by rw [bare, calls, calls, List.map_singleton]
  | .compound _ ss => by rw [bare, calls, calls, callsOf_bare ss]
  | .empty _ => by rw [bare, calls, List.map_nil]

theorem callsOf_bare : ∀ ss : List Stmt, callsOf (bareOf ss) = (callsOf ss).map Call.bare
  | [] => by rw [bareOf, callsOf, List.map_nil]
  | s :: ss => by
    rw [bareOf, callsOf, callsOf, calls_bare s, callsOf_bare ss, List.map_append]

end

end Stmt

/-! ## Bare trees are fresh -/

namespace TypeExpr

mutual

theorem isFresh_bare : ∀ t : TypeExpr, t.bare.isFresh = true
  | .named _ _ _ => rfl
  | .array _ _ base _ => base.isFresh_bare
  | .record _ fields _ => fieldsFresh_bare fields

theorem fieldsFresh_bare : ∀ fields, fieldsFresh (bareFields fields) = true
  | [] => rfl
  | ⟨_, _, type⟩ :: fields => Bool.and_eq_true_iff.2 ⟨type.isFresh_bare, fieldsFresh_bare fields⟩

end

end TypeExpr

mutual

theorem Expr.isFresh_bare : ∀ e : Expr, e.bare.isFresh = true
  | .binary _ _ left right _ => Bool.and_eq_true_iff.2 ⟨left.isFresh_bare, right.isFresh_bare⟩
  | .unary _ _ operand _ => operand.isFresh_bare
  | .literal _ _ _ => rfl
  | .designator _ target _ => target.isFresh_bare

theorem Designator.isFresh_bare : ∀ d : Designator, d.bare.isFresh = true
  | .named _ _ _ => rfl
  | .element _ array index _ => Bool.and_eq_true_iff.2 ⟨array.isFresh_bare, index.isFresh_bare⟩
  | .field _ record _ _ => record.isFresh_bare

end

theorem all_map_eq_true {α : Type} {f : α → α} {p : α → Bool} (h : ∀ a, p (f a) = true)
    (as : List α) : (as.map f).all p = true := by
  rw [List.all_map, List.all_eq_true]
  exact fun a _ => h a

namespace Stmt

mutual

theorem isFresh_bare : ∀ s : Stmt, s.bare.isFresh = true
  | .assign _ target value => Bool.and_eq_true_iff.2 ⟨target.isFresh_bare, value.isFresh_bare⟩
  | .ifElse _ condition thenPart elsePart => Bool.and_eq_true_iff.2
    ⟨Bool.and_eq_true_iff.2 ⟨condition.isFresh_bare, thenPart.isFresh_bare⟩,
      elsePart.isFresh_bare⟩
  | .whileDo _ condition body => Bool.and_eq_true_iff.2 ⟨condition.isFresh_bare, body.isFresh_bare⟩
  | .call c => all_map_eq_true Expr.isFresh_bare c.arguments
  | .compound _ statements => allFresh_bare statements
  | .empty _ => rfl

theorem allFresh_bare : ∀ ss, allFresh (bareOf ss) = true
  | [] => rfl
  | s :: ss => Bool.and_eq_true_iff.2 ⟨s.isFresh_bare, allFresh_bare ss⟩

end

end Stmt

theorem Decl.isFresh_bare : ∀ d : Decl, d.bare.isFresh = true
  | .type d => d.type.isFresh_bare
  | .procedure d => Bool.and_eq_true_iff.2
    ⟨Bool.and_eq_true_iff.2 ⟨all_map_eq_true (fun d => d.type.isFresh_bare) d.parameters,
      all_map_eq_true (fun d => d.type.isFresh_bare) d.locals⟩, Stmt.allFresh_bare d.body⟩

theorem Program.isFresh_bare (p : Program) : p.bare.isFresh = true :=
  all_map_eq_true Decl.isFresh_bare p.declarations

/-! ## Fresh trees have empty slots -/

mutual

theorem Expr.isFresh_eq_all : ∀ e : Expr, e.isFresh = e.slots.all TypeSlot.isEmpty
  | .binary _ _ left right slot => by
    rw [Expr.isFresh, Expr.slots, List.all_cons, List.all_append, left.isFresh_eq_all,
      right.isFresh_eq_all, Bool.and_assoc]
  | .unary _ _ operand _ => by
    rw [Expr.isFresh, Expr.slots, List.all_cons, operand.isFresh_eq_all]
  | .literal _ _ slot => (Bool.and_true _).symm
  | .designator _ target _ => by
    rw [Expr.isFresh, Expr.slots, List.all_cons, target.isFresh_eq_all]

theorem Designator.isFresh_eq_all : ∀ d : Designator, d.isFresh = d.slots.all TypeSlot.isEmpty
  | .named _ _ slot => (Bool.and_true _).symm
  | .element _ array index _ => by
    rw [Designator.isFresh, Designator.slots, List.all_cons, List.all_append, array.isFresh_eq_all,
      index.isFresh_eq_all, Bool.and_assoc]
  | .field _ record _ _ => by
    rw [Designator.isFresh, Designator.slots, List.all_cons, record.isFresh_eq_all]

end

theorem Call.isFresh_eq_all (c : Call) :
    c.arguments.all Expr.isFresh = c.slots.all TypeSlot.isEmpty := by
  rw [Call.slots, List.all_flatMap, funext Expr.isFresh_eq_all]

namespace Stmt

mutual

theorem isFresh_eq_all : ∀ s : Stmt, s.isFresh = s.slots.all TypeSlot.isEmpty
  | .assign _ target value => by
    rw [isFresh, slots, List.all_append, target.isFresh_eq_all, value.isFresh_eq_all]
  | .ifElse _ condition thenPart elsePart => by
    rw [isFresh, slots, List.all_append, List.all_append, condition.isFresh_eq_all,
      thenPart.isFresh_eq_all, elsePart.isFresh_eq_all, Bool.and_assoc]
  | .whileDo _ condition body => by
    rw [isFresh, slots, List.all_append, condition.isFresh_eq_all, body.isFresh_eq_all]
  | .call c => c.isFresh_eq_all
  | .compound _ statements => allFresh_eq_all statements
  | .empty _ => rfl

theorem allFresh_eq_all : ∀ ss, allFresh ss = (slotsOf ss).all TypeSlot.isEmpty
  | [] => rfl
  | s :: ss => by
    rw [allFresh, slotsOf, List.all_append, s.isFresh_eq_all, allFresh_eq_all ss]

end

end Stmt

/-! ## Nodes whose parts are kept -/

namespace Slotted.Kept

section

variable {p : Position} {size : UInt32} {name : String} {e e' : TypeExpr}
  {fields fields' : List (Binding TypeExpr)} {slot slot' : TypeSlot}

theorem namedType (hs : slot.Keeps slot') :
    Kept (TypeExpr.named p name slot) (.named p name slot') := ⟨rfl, .cons hs .nil⟩

theorem arrayType (hs : slot.Keeps slot') (h : Kept e e') :
    Kept (TypeExpr.array p size e slot) (.array p size e' slot') :=
  ⟨congrArg (TypeExpr.array p size · {}) h.bare, .cons hs h.slots⟩

theorem recordType (hs : slot.Keeps slot') (h : Kept fields fields') :
    Kept (TypeExpr.record p fields slot) (.record p fields' slot') := by
  have hfields : TypeExpr.bareFields fields' = TypeExpr.bareFields fields ∧
      SlotsKept (TypeExpr.slotsOf fields) (TypeExpr.slotsOf fields') := by
    rw [TypeExpr.bareFields_eq, TypeExpr.bareFields_eq, TypeExpr.slotsOf_eq, TypeExpr.slotsOf_eq]
    exact ⟨h.bare, h.slots⟩
  exact ⟨congrArg (TypeExpr.record p · {}) hfields.1, .cons hs hfields.2⟩

end

theorem binding {p : Position} {name : String} {e e' : TypeExpr} (h : Kept e e') :
    Kept (⟨p, name, e⟩ : Binding TypeExpr) ⟨p, name, e'⟩ :=
  ⟨congrArg (Binding.mk p name) h.bare, h.slots⟩

theorem parameter {d : ParamDecl} {e : TypeExpr} (h : Kept d.type e) :
    Kept d { d with type := e } :=
  ⟨congrArg (fun e => ({ d with type := e } : ParamDecl)) h.bare, h.slots⟩

section

variable {p : Position} {name : String} {e e' l l' r r' index index' : Expr}
  {d d' : Designator} {slot slot' : TypeSlot}

theorem literal {value : Word} (hs : slot.Keeps slot') :
    Kept (Expr.literal p value slot) (.literal p value slot') := ⟨rfl, .cons hs .nil⟩

theorem designator (hs : slot.Keeps slot') (h : Kept d d') :
    Kept (Expr.designator p d slot) (.designator p d' slot') :=
  ⟨congrArg (Expr.designator p · {}) h.bare, .cons hs h.slots⟩

theorem unary {op : UnaryOp} (hs : slot.Keeps slot') (h : Kept e e') :
    Kept (Expr.unary p op e slot) (.unary p op e' slot') :=
  ⟨congrArg (Expr.unary p op · {}) h.bare, .cons hs h.slots⟩

theorem binary {op : BinaryOp} (hs : slot.Keeps slot') (hl : Kept l l')
    (hr : Kept r r') : Kept (Expr.binary p op l r slot) (.binary p op l' r' slot') :=
  ⟨congrArg₂ (Expr.binary p op · · {}) hl.bare hr.bare, .cons hs (hl.slots.append hr.slots)⟩

theorem named (hs : slot.Keeps slot') :
    Kept (Designator.named p name slot) (.named p name slot') := ⟨rfl, .cons hs .nil⟩

theorem element (hs : slot.Keeps slot') (hd : Kept d d')
    (hi : Kept index index') :
    Kept (Designator.element p d index slot) (.element p d' index' slot') :=
  ⟨congrArg₂ (Designator.element p · · {}) hd.bare hi.bare,
    .cons hs (hd.slots.append hi.slots)⟩

theorem field (hs : slot.Keeps slot') (h : Kept d d') :
    Kept (Designator.field p d name slot) (.field p d' name slot') :=
  ⟨congrArg (Designator.field p · name {}) h.bare, .cons hs h.slots⟩

end

theorem arguments {c : Call} {es : List Expr} (h : Kept c.arguments es) :
    Kept c { c with arguments := es } :=
  ⟨congrArg (Call.mk c.position c.procedure) h.bare, h.slots⟩

section

variable {p : Position} {e e' : Expr} {d d' : Designator} {s s' u u' : Stmt}
  {ss ss' : List Stmt}

theorem assign (hd : Kept d d') (he : Kept e e') :
    Kept (Stmt.assign p d e) (.assign p d' e') :=
  ⟨congrArg₂ (Stmt.assign p) hd.bare he.bare, hd.slots.append he.slots⟩

theorem ifElse (he : Kept e e') (hs : Kept s s') (hu : Kept u u') :
    Kept (Stmt.ifElse p e s u) (.ifElse p e' s' u') := by
  have hbare : Stmt.ifElse p (Slotted.bare e') (Slotted.bare s') (Slotted.bare u') =
      .ifElse p (Slotted.bare e) (Slotted.bare s) (Slotted.bare u) := by
    rw [he.bare, hs.bare, hu.bare]
  exact ⟨hbare, he.slots.append (hs.slots.append hu.slots)⟩

theorem whileDo (he : Kept e e') (hs : Kept s s') :
    Kept (Stmt.whileDo p e s) (.whileDo p e' s') :=
  ⟨congrArg₂ (Stmt.whileDo p) he.bare hs.bare, he.slots.append hs.slots⟩

theorem call {c c' : Call} (h : Kept c c') : Kept (Stmt.call c) (.call c') :=
  ⟨congrArg Stmt.call h.bare, h.slots⟩

theorem statements (h : Kept ss ss') : Stmt.bareOf ss' = Stmt.bareOf ss ∧
    SlotsKept (Stmt.slotsOf ss) (Stmt.slotsOf ss') := by
  rw [Stmt.bareOf_eq, Stmt.bareOf_eq, Stmt.slotsOf_eq, Stmt.slotsOf_eq]
  exact ⟨h.bare, h.slots⟩

theorem compound (h : Kept ss ss') : Kept (Stmt.compound p ss) (.compound p ss') :=
  ⟨congrArg (Stmt.compound p) h.statements.1, h.statements.2⟩

end

theorem procDecl {d : ProcDecl} {ps : List ParamDecl} {ls : List (Binding TypeExpr)}
    {ss : List Stmt} (hps : Kept d.parameters ps) (hls : Kept d.locals ls)
    (hss : Kept d.body ss) :
    Kept d { d with parameters := ps, locals := ls, body := ss } := by
  have hbare : ProcDecl.mk d.position d.name (Slotted.bare ps) (Slotted.bare ls)
      (Stmt.bareOf ss) = .mk d.position d.name (Slotted.bare d.parameters) (Slotted.bare d.locals)
      (Stmt.bareOf d.body) := by
    rw [hps.bare, hls.bare, hss.statements.1]
  exact ⟨hbare, hps.slots.append (hls.slots.append hss.statements.2)⟩

theorem typeDeclaration {d d' : Binding TypeExpr} (h : Kept d d') :
    Kept (Decl.type d) (.type d') := ⟨congrArg Decl.type h.bare, h.slots⟩

theorem procedureDeclaration {d d' : ProcDecl} (h : Kept d d') :
    Kept (Decl.procedure d) (.procedure d') := ⟨congrArg Decl.procedure h.bare, h.slots⟩

theorem program {p : Program} {ds : List Decl} (h : Kept p.declarations ds) :
    Kept p { p with declarations := ds } :=
  ⟨congrArg (Program.mk p.position) h.bare, h.slots⟩

end Slotted.Kept

end Spl
