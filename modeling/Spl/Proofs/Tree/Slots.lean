import Spl.Proofs.SymbolTable.Declared
import Spl.Proofs.Typing.Rules

/-!
# Slots of bodies

The nodes of a body and what their slots hold. A pass over a body changes slots only.

* `Expr.Same`, `Stmt.Same`, `ProcDecl.Same`, `Program.Same`: equal but for the slots of bodies.
* `Expr.Derives.congr`, `Designator.Derives.congr`: the rules do not see slots.
* `Node`, `Expr.nodes`, `Stmt.nodes`: the expressions and designators in a tree.
* `SlotsExact`: every slot holds the type that the rules derive.
* `SlotsSound`: every slot is empty or holds the type that the rules derive.
-/

namespace Spl

/-! ## Trees that differ in slots -/

mutual

/-- Two expressions are equal but for their slots. -/
inductive Expr.Same : Expr → Expr → Prop
  | literal {p : Position} {value : Word} {slot slot' : TypeSlot} :
      Expr.Same (.literal p value slot) (.literal p value slot')
  | designator {p : Position} {d d' : Designator} {slot slot' : TypeSlot} :
      d.Same d' → Expr.Same (.designator p d slot) (.designator p d' slot')
  | unary {p : Position} {op : UnaryOp} {e e' : Expr} {slot slot' : TypeSlot} :
      e.Same e' → Expr.Same (.unary p op e slot) (.unary p op e' slot')
  | binary {p : Position} {op : BinaryOp} {l l' r r' : Expr} {slot slot' : TypeSlot} :
      l.Same l' → r.Same r' → Expr.Same (.binary p op l r slot) (.binary p op l' r' slot')

/-- Two designators are equal but for their slots. -/
inductive Designator.Same : Designator → Designator → Prop
  | named {p : Position} {name : String} {slot slot' : TypeSlot} :
      Designator.Same (.named p name slot) (.named p name slot')
  | element {p : Position} {array array' : Designator} {index index' : Expr}
      {slot slot' : TypeSlot} :
      array.Same array' → index.Same index' →
      Designator.Same (.element p array index slot) (.element p array' index' slot')
  | field {p : Position} {record record' : Designator} {name : String} {slot slot' : TypeSlot} :
      record.Same record' →
      Designator.Same (.field p record name slot) (.field p record' name slot')

end

mutual

theorem Expr.Same.refl : ∀ e : Expr, e.Same e
  | .literal .. => .literal
  | .designator _ d _ => .designator (.refl d)
  | .unary _ _ e _ => .unary (.refl e)
  | .binary _ _ l r _ => .binary (.refl l) (.refl r)

theorem Designator.Same.refl : ∀ d : Designator, d.Same d
  | .named .. => .named
  | .element _ array index _ => .element (.refl array) (.refl index)
  | .field _ record _ _ => .field (.refl record)

end

mutual

/-- Two statements are equal but for their slots. -/
inductive Stmt.Same : Stmt → Stmt → Prop
  | assign {p : Position} {d d' : Designator} {e e' : Expr} :
      d.Same d' → e.Same e' → Stmt.Same (.assign p d e) (.assign p d' e')
  | ifElse {p : Position} {e e' : Expr} {s₁ s₁' s₂ s₂' : Stmt} :
      e.Same e' → s₁.Same s₁' → s₂.Same s₂' → Stmt.Same (.ifElse p e s₁ s₂) (.ifElse p e' s₁' s₂')
  | whileDo {p : Position} {e e' : Expr} {s s' : Stmt} :
      e.Same e' → s.Same s' → Stmt.Same (.whileDo p e s) (.whileDo p e' s')
  | call {p : Position} {procedure : String} {es es' : List Expr} :
      List.Forall₂ Expr.Same es es' →
      Stmt.Same (.call ⟨p, procedure, es⟩) (.call ⟨p, procedure, es'⟩)
  | compound {p : Position} {ss ss' : List Stmt} :
      Stmt.SameAll ss ss' → Stmt.Same (.compound p ss) (.compound p ss')
  | empty {p : Position} : Stmt.Same (.empty p) (.empty p)

/-- Two lists of statements are equal but for their slots. -/
inductive Stmt.SameAll : List Stmt → List Stmt → Prop
  | nil : Stmt.SameAll [] []
  | cons {s s' : Stmt} {ss ss' : List Stmt} :
      s.Same s' → Stmt.SameAll ss ss' → Stmt.SameAll (s :: ss) (s' :: ss')

end

theorem Expr.forall₂_same_refl (es : List Expr) : List.Forall₂ Expr.Same es es :=
  List.forall₂_same.2 fun e _ => .refl e

mutual

theorem Stmt.Same.refl : ∀ s : Stmt, s.Same s
  | .assign _ d e => .assign (.refl d) (.refl e)
  | .ifElse _ e s₁ s₂ => .ifElse (.refl e) (Stmt.Same.refl s₁) (Stmt.Same.refl s₂)
  | .whileDo _ e s => .whileDo (.refl e) (Stmt.Same.refl s)
  | .call ⟨_, _, es⟩ => .call (Expr.forall₂_same_refl es)
  | .compound _ ss => .compound (Stmt.SameAll.refl ss)
  | .empty _ => .empty

theorem Stmt.SameAll.refl (ss : List Stmt) : Stmt.SameAll ss ss := by
  cases ss with
  | nil => exact .nil
  | cons s ss => exact .cons (Stmt.Same.refl s) (Stmt.SameAll.refl ss)

end

/-- Two procedures are equal but for the slots of their bodies. -/
def ProcDecl.Same (d d' : ProcDecl) : Prop := d'.head = d.head ∧ Stmt.SameAll d.body d'.body

/-- Two declarations are equal but for the slots of bodies. -/
inductive Decl.Same : Decl → Decl → Prop
  | type {d : Binding TypeExpr} : Same (.type d) (.type d)
  | procedure {d d' : ProcDecl} : d.Same d' → Same (.procedure d) (.procedure d')

/-- Two programs are equal but for the slots of bodies. -/
structure Program.Same (p p' : Program) : Prop where
  position : p'.position = p.position
  declarations : List.Forall₂ Decl.Same p.declarations p'.declarations

variable {N : Meaning}

mutual

/-- The rules do not see the slots of an expression. -/
theorem Expr.Derives.congr : ∀ {e e' : Expr} {ty : Ty},
    e.Same e' → e.Derives N ty → e'.Derives N ty
  | _, _, _, .literal, .literal => .literal
  | _, _, _, .designator h, .designator hd => .designator (hd.congr h)
  | _, _, _, .unary h, .unary he hb => .unary (he.congr h) hb
  | _, _, _, .binary hl hr, .arith hdl hdr => .arith (hdl.congr hl) (hdr.congr hr)
  | _, _, _, .binary hl hr, .compare hdl hdr => .compare (hdl.congr hl) (hdr.congr hr)

/-- The rules do not see the slots of a designator. -/
theorem Designator.Derives.congr : ∀ {d d' : Designator} {ty : Ty},
    d.Same d' → d.Derives N ty → d'.Derives N ty
  | _, _, _, .named, .named h => .named h
  | _, _, _, .element ha hi, .element hdi hda => .element (hdi.congr hi) (hda.congr ha)
  | _, _, _, .field h, .field hd hf => .field (hd.congr h) hf

end

/-! ## Nodes -/

/-- A node of a body that has a slot. -/
inductive Node where
  | expr (e : Expr)
  | designator (d : Designator)

namespace Node

/-- The slot of a node. -/
def slot : Node → TypeSlot
  | .expr e => e.slot
  | .designator d => d.slot

/-- By the rules, a node has a type. -/
def Derives (N : Meaning) : Node → Ty → Prop
  | .expr e => e.Derives N
  | .designator d => d.Derives N

theorem Derives.unique {x : Node} {ty ty' : Ty} (h : x.Derives N ty) (h' : x.Derives N ty') :
    ty = ty' := by
  cases x with
  | expr e => exact Expr.Derives.unique h h'
  | designator d => exact Designator.Derives.unique h h'

end Node

mutual

/-- The nodes of an expression: the expression itself and those inside it. -/
def Expr.nodes : Expr → List Node
  | .literal p value slot => [.expr (.literal p value slot)]
  | .designator p d slot => .expr (.designator p d slot) :: d.nodes
  | .unary p op e slot => .expr (.unary p op e slot) :: e.nodes
  | .binary p op l r slot => .expr (.binary p op l r slot) :: (l.nodes ++ r.nodes)

/-- The nodes of a designator: the designator itself and those inside it. -/
def Designator.nodes : Designator → List Node
  | .named p name slot => [.designator (.named p name slot)]
  | .element p array index slot =>
    .designator (.element p array index slot) :: (array.nodes ++ index.nodes)
  | .field p record name slot => .designator (.field p record name slot) :: record.nodes

end

mutual

/-- The nodes of a statement. -/
def Stmt.nodes : Stmt → List Node
  | .assign _ d e => d.nodes ++ e.nodes
  | .ifElse _ e s₁ s₂ => e.nodes ++ (s₁.nodes ++ s₂.nodes)
  | .whileDo _ e s => e.nodes ++ s.nodes
  | .call c => c.arguments.flatMap Expr.nodes
  | .compound _ ss => Stmt.nodesOf ss
  | .empty _ => []

/-- The nodes of a list of statements. -/
def Stmt.nodesOf : List Stmt → List Node
  | [] => []
  | s :: ss => s.nodes ++ Stmt.nodesOf ss

end

/-! ## What the slots hold -/

/-- Every slot holds the type that the rules derive. -/
def SlotsExact (N : Meaning) (xs : List Node) : Prop :=
  ∀ x ∈ xs, ∃ ty, x.slot.type? = some ty ∧ x.Derives N ty

/-- Every slot is empty or holds the type that the rules derive. -/
def SlotsSound (N : Meaning) (xs : List Node) : Prop :=
  ∀ x ∈ xs, ∀ ty, x.slot.type? = some ty → x.Derives N ty

variable {x : Node} {xs ys : List Node}

/-- A slot that is filled with a derived type holds the only one that the rules derive. -/
theorem SlotsExact.derives_iff (h : SlotsExact N xs) (hx : x ∈ xs) :
    ∃ ty, x.slot.type? = some ty ∧ ∀ ty', x.Derives N ty' ↔ ty' = ty := by
  obtain ⟨ty, hs, hd⟩ := h x hx
  refine ⟨ty, hs, fun ty' => ⟨fun hd' => hd'.unique hd, ?_⟩⟩
  rintro rfl
  exact hd

theorem SlotsExact.sound (h : SlotsExact N xs) : SlotsSound N xs := by
  intro x hx ty hty
  obtain ⟨ty', hs, hd⟩ := h x hx
  rw [hty] at hs
  cases hs
  exact hd

theorem SlotsExact.nil : SlotsExact N [] := by
  intro x hx
  cases hx

theorem SlotsSound.nil : SlotsSound N [] := SlotsExact.nil.sound

theorem SlotsExact.cons {ty : Ty} (hs : x.slot.type? = some ty) (hd : x.Derives N ty)
    (h : SlotsExact N xs) : SlotsExact N (x :: xs) := by
  intro y hy
  rcases List.mem_cons.1 hy with rfl | hy
  · exact ⟨ty, hs, hd⟩
  · exact h y hy

theorem SlotsExact.append (hx : SlotsExact N xs) (hy : SlotsExact N ys) :
    SlotsExact N (xs ++ ys) := by
  intro z hz
  rcases List.mem_append.1 hz with hz | hz
  · exact hx z hz
  · exact hy z hz

theorem SlotsSound.cons_empty (hs : x.slot.isEmpty = true) (h : SlotsSound N xs) :
    SlotsSound N (x :: xs) := by
  intro y hy ty hty
  rcases List.mem_cons.1 hy with rfl | hy
  · rw [TypeSlot.type?_of_isEmpty hs] at hty
    cases hty
  · exact h y hy ty hty

theorem SlotsSound.append (hx : SlotsSound N xs) (hy : SlotsSound N ys) :
    SlotsSound N (xs ++ ys) := by
  intro z hz
  rcases List.mem_append.1 hz with hz | hz
  · exact hx z hz
  · exact hy z hz

/-! ## Fresh trees -/

mutual

theorem Expr.slotsSound_of_isFresh : ∀ {e : Expr}, e.isFresh = true → SlotsSound N e.nodes
  | .literal _ _ _, h => .cons_empty h .nil
  | .designator _ d _, h => by
    simp only [Expr.isFresh, Bool.and_eq_true] at h
    exact .cons_empty h.1 (Designator.slotsSound_of_isFresh h.2)
  | .unary _ _ e _, h => by
    simp only [Expr.isFresh, Bool.and_eq_true] at h
    exact .cons_empty h.1 (Expr.slotsSound_of_isFresh h.2)
  | .binary _ _ l r _, h => by
    simp only [Expr.isFresh, Bool.and_eq_true] at h
    exact .cons_empty h.1.1
      ((Expr.slotsSound_of_isFresh h.1.2).append (Expr.slotsSound_of_isFresh h.2))

theorem Designator.slotsSound_of_isFresh : ∀ {d : Designator}, d.isFresh = true →
    SlotsSound N d.nodes
  | .named _ _ _, h => .cons_empty h .nil
  | .element _ array index _, h => by
    simp only [Designator.isFresh, Bool.and_eq_true] at h
    exact .cons_empty h.1.1
      ((Designator.slotsSound_of_isFresh h.1.2).append (Expr.slotsSound_of_isFresh h.2))
  | .field _ record _ _, h => by
    simp only [Designator.isFresh, Bool.and_eq_true] at h
    exact .cons_empty h.1 (Designator.slotsSound_of_isFresh h.2)

end

theorem Expr.slotsSound_flatMap {es : List Expr} (h : ∀ e ∈ es, e.isFresh = true) :
    SlotsSound N (es.flatMap Expr.nodes) := by
  intro x hx
  obtain ⟨e, he, hx⟩ := List.mem_flatMap.1 hx
  exact Expr.slotsSound_of_isFresh (h e he) x hx

mutual

theorem Stmt.slotsSound_of_isFresh : ∀ {s : Stmt}, s.isFresh = true → SlotsSound N s.nodes
  | .assign _ d e, h => by
    simp only [Stmt.isFresh, Bool.and_eq_true] at h
    exact (Designator.slotsSound_of_isFresh h.1).append (Expr.slotsSound_of_isFresh h.2)
  | .ifElse _ e s₁ s₂, h => by
    simp only [Stmt.isFresh, Bool.and_eq_true] at h
    exact (Expr.slotsSound_of_isFresh h.1.1).append
      ((Stmt.slotsSound_of_isFresh h.1.2).append (Stmt.slotsSound_of_isFresh h.2))
  | .whileDo _ e s, h => by
    simp only [Stmt.isFresh, Bool.and_eq_true] at h
    exact (Expr.slotsSound_of_isFresh h.1).append (Stmt.slotsSound_of_isFresh h.2)
  | .call c, h => by
    simp only [Stmt.isFresh, List.all_eq_true] at h
    exact Expr.slotsSound_flatMap h
  | .compound _ ss, h => Stmt.slotsSound_of_allFresh h
  | .empty _, _ => .nil

theorem Stmt.slotsSound_of_allFresh : ∀ {ss : List Stmt}, Stmt.allFresh ss = true →
    SlotsSound N (Stmt.nodesOf ss)
  | [], _ => .nil
  | s :: ss, h => by
    simp only [Stmt.allFresh, Bool.and_eq_true] at h
    exact (Stmt.slotsSound_of_isFresh h.1).append (Stmt.slotsSound_of_allFresh h.2)

end

end Spl
