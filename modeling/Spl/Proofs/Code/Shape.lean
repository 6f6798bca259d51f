import Spl.Code.Module

/-!
# The shape of code

Which lines the code of a form consists of, said apart from the steps that append them: a relation
between a form, the registers in use, the number of the next label and the lines. Each form takes
as many labels as `labels` counts, whatever its registers.

* `Expr.labels`, `Stmt.labels`: the labels that the code of a form takes.
* `Expr.names`, `Stmt.names`: the variables that a form names.
* `Designator.AddressCode`, `Expr.ValueCode`, `Expr.BranchCode`: the lines of designators,
  expressions and conditions.
* `Stmt.Code`: the lines of statements.
* `ProcDecl.Code`, `prologueLines`: the lines of procedures and the beginning of a module.
-/

namespace Spl

/-! ## Labels and names -/

mutual

/-- The labels that the code of an expression's value takes: two for each comparison. -/
def Expr.labels : Expr → Nat
  | .literal .. => 0
  | .unary _ _ operand _ => operand.labels
  | .binary _ (.compare _) left right _ => 2 + left.labels + right.labels
  | .binary _ (.arith _) left right _ => left.labels + right.labels
  | .designator _ target _ => target.labels

/-- The labels that the code of a designator's address takes. -/
def Designator.labels : Designator → Nat
  | .named .. => 0
  | .element _ array index _ => array.labels + index.labels
  | .field _ record _ _ => record.labels

end

mutual

/-- The variables that an expression names. -/
def Expr.names : Expr → List String
  | .literal .. => []
  | .unary _ _ operand _ => operand.names
  | .binary _ _ left right _ => left.names ++ right.names
  | .designator _ target _ => target.names

/-- The variables that a designator names. -/
def Designator.names : Designator → List String
  | .named _ name _ => [name]
  | .element _ array index _ => array.names ++ index.names
  | .field _ record _ _ => record.names

end

namespace Expr

/-- The labels that the code of a condition takes. A comparison is a branch then, and takes none of
its own. -/
def branchLabels : Expr → Nat
  | .binary _ (.compare _) left right _ => left.labels + right.labels
  | e@(.literal ..) | e@(.unary ..) | e@(.binary _ (.arith _) ..) | e@(.designator ..) => e.labels

/-- The labels that the code of a list of expressions takes. -/
def labelsOf : List Expr → Nat
  | [] => 0
  | e :: es => e.labels + labelsOf es

/-- True of the conditions that are comparisons. -/
def isCompare : Expr → Bool
  | .binary _ (.compare _) .. => true
  | .literal .. | .unary .. | .binary _ (.arith _) .. | .designator .. => false

theorem branchLabels_of_not_isCompare {e : Expr} (h : e.isCompare = false) :
    e.branchLabels = e.labels := by
  cases e with
  | binary p op l r slot =>
    cases op with
    | arith op => rfl
    | compare op => cases h
  | unary p op e slot => rfl
  | literal p v slot => rfl
  | designator p d slot => rfl

end Expr

namespace Call

/-- The labels that the code of a call takes. -/
def labels (c : Call) : Nat := Expr.labelsOf c.arguments

/-- The variables that a call names. -/
def names (c : Call) : List String := c.arguments.flatMap Expr.names

end Call

namespace Stmt

mutual

/-- The labels that the code of a statement takes. A conditional without an else part needs one
label fewer. -/
def labels : Stmt → Nat
  | .assign _ target value => target.labels + value.labels
  | .ifElse _ condition thenPart elsePart =>
    (if elsePart.isEmpty then 1 else 2) + condition.branchLabels + thenPart.labels + elsePart.labels
  | .whileDo _ condition body => 2 + condition.branchLabels + body.labels
  | .call c => c.labels
  | .compound _ statements => labelsOf statements
  | .empty _ => 0

/-- The labels that the code of a list of statements takes. -/
def labelsOf : List Stmt → Nat
  | [] => 0
  | s :: ss => s.labels + labelsOf ss

end

mutual

/-- The variables that a statement names. -/
def names : Stmt → List String
  | .assign _ target value => target.names ++ value.names
  | .ifElse _ condition thenPart elsePart => condition.names ++ thenPart.names ++ elsePart.names
  | .whileDo _ condition body => condition.names ++ body.names
  | .call c => c.names
  | .compound _ statements => namesOf statements
  | .empty _ => []

/-- The variables that a list of statements names. -/
def namesOf : List Stmt → List String
  | [] => []
  | s :: ss => s.names ++ namesOf ss

end

theorem labels_of_isEmpty {s : Stmt} (h : s.isEmpty = true) : s.labels = 0 := by
  cases s <;> first | rfl | cases h

theorem names_of_isEmpty {s : Stmt} (h : s.isEmpty = true) : s.names = [] := by
  cases s <;> first | rfl | cases h

end Stmt

/-! ## Lines -/

/-- A line without a comment. -/
def plain (inst : Inst) : Line := { inst }

/-- A line with a comment. -/
def noted (inst : Inst) (comment : String) : Line := { inst, comment := some comment }

section

variable (t : SymbolTable) (a : Addressing)

mutual

/-- The lines that compute the address of a designator into the current register. -/
inductive Designator.AddressCode : RegisterStack → Nat → Designator → List Line → Prop
  | named {s : RegisterStack} {n : Nat} {p : Position} {name : String} {slot : TypeSlot}
      {v : Variable} {offset distance : Word} :
      variableAt t a.scope name = .ok v → v.offset = some offset →
      a.bias.sum offset = .ok distance →
      Designator.AddressCode s n (.named p name slot)
        (plain (.alu .add s.current a.base (.immediate distance)) ::
          if v.isReference then [plain (.load s.current s.current 0)] else [])
  | element {s s' s'' : RegisterStack} {n : Nat} {p : Position} {array : Designator} {index : Expr}
      {slot : TypeSlot} {length : UInt32} {base : Ty} {size : Word} {ac ic : List Line} :
      array.type = .ok (.array length base) → base.byteSize = .ok size →
      s.push? = some s' → s'.push? = some s'' →
      array.AddressCode s n ac → index.ValueCode s' (n + array.labels) ic →
      Designator.AddressCode s n (.element p array index slot)
        (ac ++ ic ++
          [plain (.alu .add s''.current .zero (.immediate length.toInt32)),
           plain (.branch .geu s'.current s''.current indexErrorRoutine),
           plain (.alu .mul s'.current s'.current (.immediate size)),
           plain (.alu .add s.current s.current (.register s'.current))])
  | field {s : RegisterStack} {n : Nat} {p : Position} {record : Designator} {name : String}
      {slot : TypeSlot} {ty : Ty} {offset : Word} {rc : List Line} :
      record.type = .ok ty → offsetInRecord name ty = .ok offset → record.AddressCode s n rc →
      Designator.AddressCode s n (.field p record name slot)
        (rc ++
          if offset ≠ 0 then [plain (.alu .add s.current s.current (.immediate offset))] else [])

/-- The lines that compute the value of an expression into the current register. -/
inductive Expr.ValueCode : RegisterStack → Nat → Expr → List Line → Prop
  | literal {s : RegisterStack} {n : Nat} {p : Position} {value : Word} {slot : TypeSlot} :
      Expr.ValueCode s n (.literal p value slot)
        [plain (.alu .add s.current .zero (.immediate value))]
  | unary {s : RegisterStack} {n : Nat} {p : Position} {e : Expr} {slot : TypeSlot}
      {ec : List Line} :
      e.ValueCode s n ec →
      Expr.ValueCode s n (.unary p .minus e slot)
        (ec ++ [plain (.alu .sub s.current .zero (.register s.current))])
  | compare {s s' : RegisterStack} {n : Nat} {p : Position} {op : Comparison} {l r : Expr}
      {slot : TypeSlot} {lc rc : List Line} :
      s.push? = some s' → l.ValueCode s (n + 2) lc → r.ValueCode s' (n + 2 + l.labels) rc →
      Expr.ValueCode s n (.binary p (.compare op) l r slot)
        (lc ++ rc ++
          [plain (.branch op.negate.cond s.current s'.current (labelName n)),
           plain (.alu .add s.current .zero (.immediate 1)),
           plain (.jump (labelName (n + 1))),
           plain (.label (labelName n)),
           plain (.alu .add s.current .zero (.immediate 0)),
           plain (.label (labelName (n + 1)))])
  | arith {s s' : RegisterStack} {n : Nat} {p : Position} {op : ArithOp} {l r : Expr}
      {slot : TypeSlot} {lc rc : List Line} :
      s.push? = some s' → l.ValueCode s n lc → r.ValueCode s' (n + l.labels) rc →
      Expr.ValueCode s n (.binary p (.arith op) l r slot)
        (lc ++ rc ++ [plain (.alu op.aluOp s.current s.current (.register s'.current))])
  | designator {s : RegisterStack} {n : Nat} {p : Position} {d : Designator} {slot : TypeSlot}
      {dc : List Line} :
      d.AddressCode s n dc →
      Expr.ValueCode s n (.designator p d slot) (dc ++ [plain (.load s.current s.current 0)])

end

/-- The lines that branch to a label unless a condition is true. -/
inductive Expr.BranchCode (label : String) : RegisterStack → Nat → Expr → List Line → Prop
  | compare {s s' : RegisterStack} {n : Nat} {p : Position} {op : Comparison} {l r : Expr}
      {slot : TypeSlot} {lc rc : List Line} :
      s.push? = some s' → l.ValueCode t a s n lc → r.ValueCode t a s' (n + l.labels) rc →
      Expr.BranchCode label s n (.binary p (.compare op) l r slot)
        (lc ++ rc ++ [plain (.branch op.negate.cond s.current s'.current label)])
  | value {s : RegisterStack} {n : Nat} {e : Expr} {ec : List Line} :
      e.isCompare = false → e.ValueCode t a s n ec →
      Expr.BranchCode label s n e (ec ++ [plain (.branch .eq s.current .zero label)])

/-- The lines that store the arguments of a call, the first of which has the given index. -/
inductive Call.ArgumentsCode :
    RegisterStack → Nat → Nat → List Expr → List Variable → List Line → Prop
  | nil {s : RegisterStack} {n index : Nat} : Call.ArgumentsCode s n index [] [] []
  | value {s : RegisterStack} {n index : Nat} {e : Expr} {es : List Expr} {v : Variable}
      {vs : List Variable} {offset : Word} {ec code : List Line} :
      v.isReference = false → v.offset = some offset → e.ValueCode t a s n ec →
      Call.ArgumentsCode s (n + e.labels) (index + 1) es vs code →
      Call.ArgumentsCode s n index (e :: es) (v :: vs)
        (ec ++ noted (.store s.current .stackPointer offset)
          ("store argument #" ++ toString index) :: code)
  | reference {s : RegisterStack} {n index : Nat} {p : Position} {d : Designator} {slot : TypeSlot}
      {es : List Expr} {v : Variable} {vs : List Variable} {offset : Word} {dc code : List Line} :
      v.isReference = true → v.offset = some offset → d.AddressCode t a s n dc →
      Call.ArgumentsCode s (n + d.labels) (index + 1) es vs code →
      Call.ArgumentsCode s n index (.designator p d slot :: es) (v :: vs)
        (dc ++ noted (.store s.current .stackPointer offset)
          ("store argument #" ++ toString index) :: code)

mutual

/-- The lines of a statement. -/
inductive Stmt.Code : RegisterStack → Nat → Stmt → List Line → Prop
  | assign {s s' : RegisterStack} {n : Nat} {p : Position} {d : Designator} {e : Expr}
      {dc ec : List Line} :
      s.push? = some s' → d.AddressCode t a s n dc → e.ValueCode t a s' (n + d.labels) ec →
      Stmt.Code s n (.assign p d e) (dc ++ ec ++ [plain (.store s'.current s.current 0)])
  | ifThen {s : RegisterStack} {n : Nat} {p : Position} {e : Expr} {s₁ s₂ : Stmt}
      {ec c₁ : List Line} :
      s₂.isEmpty = true → e.BranchCode t a (labelName n) s (n + 1) ec →
      s₁.Code s (n + 1 + e.branchLabels) c₁ →
      Stmt.Code s n (.ifElse p e s₁ s₂) (ec ++ c₁ ++ [plain (.label (labelName n))])
  | ifElse {s : RegisterStack} {n : Nat} {p : Position} {e : Expr} {s₁ s₂ : Stmt}
      {ec c₁ c₂ : List Line} {done : String} :
      s₂.isEmpty = false → e.BranchCode t a (labelName n) s (n + 1) ec →
      s₁.Code s (n + 1 + e.branchLabels) c₁ →
      s₂.Code s (n + 1 + e.branchLabels + s₁.labels + 1) c₂ →
      done = labelName (n + 1 + e.branchLabels + s₁.labels) →
      Stmt.Code s n (.ifElse p e s₁ s₂)
        (ec ++ c₁ ++ [plain (.jump done), plain (.label (labelName n))] ++ c₂ ++
          [plain (.label done)])
  | whileDo {s : RegisterStack} {n : Nat} {p : Position} {e : Expr} {s₁ : Stmt}
      {ec c₁ : List Line} :
      e.BranchCode t a (labelName (n + 1)) s (n + 2) ec →
      s₁.Code s (n + 2 + e.branchLabels) c₁ →
      Stmt.Code s n (.whileDo p e s₁)
        (plain (.label (labelName n)) :: ec ++ c₁ ++
          [plain (.jump (labelName n)), plain (.label (labelName (n + 1)))])
  | call {s : RegisterStack} {n : Nat} {c : Call} {callee : Procedure} {code : List Line} :
      t.procedure? c.procedure = some callee →
      Call.ArgumentsCode t a s n 0 c.arguments callee.parameters code →
      Stmt.Code s n (.call c) (code ++ [plain (.call c.procedure)])
  | compound {s : RegisterStack} {n : Nat} {p : Position} {ss : List Stmt} {code : List Line} :
      Stmt.CodeOf s n ss code → Stmt.Code s n (.compound p ss) code
  | empty {s : RegisterStack} {n : Nat} {p : Position} : Stmt.Code s n (.empty p) []

/-- The lines of a list of statements. -/
inductive Stmt.CodeOf : RegisterStack → Nat → List Stmt → List Line → Prop
  | nil {s : RegisterStack} {n : Nat} : Stmt.CodeOf s n [] []
  | cons {s : RegisterStack} {n : Nat} {s₁ : Stmt} {ss : List Stmt} {c₁ cs : List Line} :
      s₁.Code s n c₁ → Stmt.CodeOf s (n + s₁.labels) ss cs → Stmt.CodeOf s n (s₁ :: ss) (c₁ ++ cs)

end

end

/-! ## Procedures -/

namespace Procedure

/-- How the body of a procedure with a frame of the given size reaches its variables. -/
def addressing (p : Procedure) (size : Word) : Addressing :=
  if p.layout.isLeaf then { scope := p.localScope, base := .stackPointer, bias := size }
  else { scope := p.localScope, base := .framePointer, bias := 0 }

end Procedure

/-- The lines between the label of a procedure and its body. The linkage words are saved unless the
frame is a leaf frame. -/
inductive EntryCode (layout : FrameLayout) (size : Word) : List Line → Prop
  | leaf : layout.isLeaf = true →
      EntryCode layout size
        [noted (.alu .sub .stackPointer .stackPointer (.immediate size)) "allocate frame"]
  | frame {old ret : Word} : layout.isLeaf = false → linkageOffsets layout = .ok (old, ret) →
      EntryCode layout size
        [noted (.alu .sub .stackPointer .stackPointer (.immediate size)) "allocate frame",
         noted (.store .framePointer .stackPointer old) "save old frame pointer",
         noted (.alu .add .framePointer .stackPointer (.immediate size)) "setup new frame pointer",
         noted (.store .returnAddress .framePointer ret) "save return register"]

/-- The lines behind the body of a procedure. -/
inductive ExitCode (layout : FrameLayout) (size : Word) : List Line → Prop
  | leaf : layout.isLeaf = true →
      ExitCode layout size
        [noted (.alu .add .stackPointer .stackPointer (.immediate size)) "release frame",
         noted (.jumpRegister .returnAddress) "return"]
  | frame {old ret : Word} : layout.isLeaf = false → linkageOffsets layout = .ok (old, ret) →
      ExitCode layout size
        [noted (.load .returnAddress .framePointer ret) "restore return register",
         noted (.load .framePointer .stackPointer old) "restore old frame pointer",
         noted (.alu .add .stackPointer .stackPointer (.immediate size)) "release frame",
         noted (.jumpRegister .returnAddress) "return"]

namespace ProcDecl

/-- The labels that the code of a procedure takes. -/
def labels (d : ProcDecl) : Nat := Stmt.labelsOf d.body

/-- The labels that the code of a list of procedures takes. -/
def labelsOf : List ProcDecl → Nat
  | [] => 0
  | d :: ds => d.labels + labelsOf ds

/-- The lines of a procedure. -/
inductive Code (t : SymbolTable) (s : RegisterStack) (n : Nat) (d : ProcDecl) :
    List Line → Prop
  | mk {P : Procedure} {size : Word} {entry body exit : List Line} :
      t.procedure? d.name = some P → P.layout.frameSize = .ok (some size) →
      EntryCode P.layout size entry → Stmt.CodeOf t (P.addressing size) s n d.body body →
      ExitCode P.layout size exit →
      Code t s n d
        (plain .blank :: plain (.exportName d.name) :: plain (.label d.name) ::
          (entry ++ body ++ exit))

/-- The lines of procedures, one after the other. -/
inductive CodeOf (t : SymbolTable) (s : RegisterStack) : Nat → List ProcDecl → List Line → Prop
  | nil {n : Nat} : CodeOf t s n [] []
  | cons {n : Nat} {d : ProcDecl} {ds : List ProcDecl} {c cs : List Line} :
      d.Code t s n c → CodeOf t s (n + d.labels) ds cs → CodeOf t s n (d :: ds) (c ++ cs)

end ProcDecl

namespace Program

/-- The labels that the code of a program takes. -/
def labels (p : Program) : Nat := ProcDecl.labelsOf p.procedures

end Program

/-- The lines with which every module begins. -/
def prologueLines : List Line :=
  (builtins.map fun b => plain (.importName b.name)) ++
    [plain (.importName indexErrorRoutine), plain .blank, plain .code, plain (.align 4)]

end Spl
