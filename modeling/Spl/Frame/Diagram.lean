import Spl.Failure
import Spl.SymbolTable.Text

/-!
# Diagrams of stack frames

The diagram of a procedure shows its frame from the highest address to the lowest, one row for each
word or variable, with the place of each beside it. A place counts from the frame pointer or from
the stack pointer; in a leaf frame all places count from the stack pointer.

* `diagram`: the rows of a procedure.
* `Row.text`: a row as text.
* `frameDump`: the sizes and diagrams of all procedures of a program.
-/

namespace Spl

/-- The register from which a place counts. -/
inductive Base where
  | framePointer
  | stackPointer
  deriving DecidableEq

/-- A place in a frame: so many bytes above or below a base. The distance is unknown before the
frame is allocated. -/
inductive Place where
  | above (base : Base) (distance : Option Word)
  | below (base : Base) (distance : Option Word)
  /-- A parameter that its own procedure and its callers see in different places. -/
  | inconsistent (base : Base) (own callers : Option Word)
  deriving DecidableEq

/-- What lies in a row of a diagram. -/
inductive Cell where
  | parameter (name : String)
  | localVariable (name : String)
  | oldFramePointer
  | returnAddress
  | argument (number : Nat)
  | unknownArguments
  deriving DecidableEq

/-- What a line between two areas marks. -/
inductive Mark where
  | beginning
  /-- The beginning of a leaf frame, which is the distance from the stack to the frame pointer. -/
  | leafBeginning (size : Word)
  | outgoingArea
  | ending
  | leafEnding
  deriving DecidableEq

/-- A row of a diagram. -/
inductive Row where
  | ellipsis
  | cell (content : Cell) (place : Option Place)
  | line (mark : Option Mark)
  deriving DecidableEq

namespace Base

/-- The name of a base. -/
def text : Base → String
  | .framePointer => "FP"
  | .stackPointer => "SP"

end Base

namespace Place

/-- A place beside a row. -/
def text : Place → String
  | .above base distance => "<- " ++ base.text ++ " + " ++ optionalText distance
  | .below base distance => "<- " ++ base.text ++ " - " ++ optionalText distance
  | .inconsistent base own callers =>
    "<- " ++ base.text ++ " + INCONSISTENT(" ++ optionalText own ++ "/" ++
      optionalText callers ++ ")"

end Place

namespace Cell

/-- The contents of a row. -/
def text : Cell → String
  | .parameter name => "par " ++ name
  | .localVariable name => "var " ++ name
  | .oldFramePointer => "Old FP"
  | .returnAddress => "Old Return"
  | .argument number => "arg " ++ toString number
  | .unknownArguments => "UNKNOWN SIZE"

end Cell

namespace Mark

/-- A mark beside a line. -/
def text : Mark → String
  | .beginning => "BEGIN <- FP"
  | .leafBeginning size => "BEGIN <- SP + " ++ size.text
  | .outgoingArea => "outgoing area"
  | .ending => "END <- SP"
  | .leafEnding => "END"

end Mark

/-- A text, followed by blanks up to the given width. -/
def padRight (width : Nat) (s : String) : String :=
  s ++ String.ofList (List.replicate (width - s.length) ' ')

namespace Row

/-- A row as text. Cells are 16 characters wide between their borders, and wider if a name is too
long. -/
def text : Row → String
  | .ellipsis => "|      ...       |"
  | .cell content none => "| " ++ padRight 15 content.text ++ "|"
  | .cell content (some place) => "| " ++ padRight 15 content.text ++ "| " ++ place.text
  | .line none => "+----------------+"
  | .line (some mark) => "+----------------+ " ++ mark.text

end Row

/-- A distance with `bias` added, if it is known. -/
def biased (bias : Word) : Option Word → Except Fault (Option Word)
  | none => .ok none
  | some offset => do return some (← offset.sum bias)

/-- The negation of a distance, if it is known. -/
def negated : Option Word → Except Fault (Option Word)
  | none => .ok none
  | some offset => do return some (← offset.negation)

/-- Sorts a list by a key, in ascending order; elements with the same key keep their order. The keys
of a list of one element are not computed. -/
def sortByKey {α : Type} (key : α → Except Fault Word) (xs : List α) : Except Fault (List α) := do
  if xs.length < 2 then return xs
  let keyed ← xs.mapM fun x => do return (← key x, x)
  return (keyed.mergeSort fun a b => a.1 ≤ b.1).map (·.2)

/-- The offset of a variable as its own procedure sees it. -/
def ownOffset (t : SymbolTable) (p : Procedure) (name : String) : Option Word :=
  (t.local? p.localScope name).bind Variable.offset

/-- The base from which the variables of a procedure are shown, and the distance from it to the
frame pointer. -/
def shownFrom (p : Procedure) : Except Fault (Base × Word) := do
  if p.layout.isLeaf then return (.stackPointer, (← p.layout.frameSize).getD 0)
  else return (.framePointer, 0)

/-- The rows of the parameters, from the highest to the lowest. A parameter without a place comes
first. -/
def parameterRows (t : SymbolTable) (d : ProcDecl) (p : Procedure) : Except Fault (List Row) := do
  let (base, bias) ← shownFrom p
  let places ← (d.parameters.zip p.parameters).mapM fun (d, callers) => do
    return (d.name, ← biased bias (ownOffset t p d.name), ← biased bias callers.offset)
  let sorted ← sortByKey (fun (_, own, _) => do return (← negated own).getD Int32.minValue) places
  return sorted.map fun (name, own, callers) =>
    .cell (.parameter name)
      (some (if own = callers then .above base own else .inconsistent base own callers))

/-- The rows of the local variables, from the highest to the lowest. A variable without a place
counts as one at 0. -/
def variableRows (t : SymbolTable) (d : ProcDecl) (p : Procedure) : Except Fault (List Row) := do
  let (base, bias) ← shownFrom p
  let places ← d.locals.mapM fun v => do
    return (v.name, ← biased bias (ownOffset t p v.name))
  let sorted ← sortByKey (fun (_, offset) => do return (← negated offset).getD 0) places
  sorted.mapM fun (name, offset) => do
    let place ← if p.layout.isLeaf then pure (Place.above base offset)
      else do pure (Place.below base (← negated offset))
    return .cell (.localVariable name) (some place)

/-- The rows of the words of the outgoing area, the first of which is the lowest. -/
def argumentRows : (words : Nat) → List Row
  | 0 => []
  | n + 1 =>
    .cell (.argument (n + 1)) (some (.above .stackPointer (some (Int32.ofNat (4 * n))))) ::
      argumentRows n

/-- The rows of the outgoing area, which are none if it is empty. -/
def outgoingRows : Option Word → List Row
  | some size =>
    if size = 0 then []
    else .line (some .outgoingArea) :: argumentRows (size.toInt.tdiv 4).toNat
  | none => [.line (some .outgoingArea), .cell .unknownArguments none]

/-- The rows of a frame below its local variables. -/
def lowerRows (d : ProcDecl) (p : Procedure) : Except Fault (List Row) := do
  if p.layout.isLeaf then return [.line (some .leafEnding)]
  let oldFramePointer ← p.layout.oldFramePointerOffset
  let returnAddress ← negated (← p.layout.returnAddressOffset)
  return (if d.locals.isEmpty then [] else [.line none]) ++
    [.cell .oldFramePointer (some (.above .stackPointer oldFramePointer)),
      .cell .returnAddress (some (.below .framePointer returnAddress))] ++
    outgoingRows p.layout.outgoingArea ++ [.line (some .ending), .ellipsis]

/-- The diagram of a procedure. -/
def diagram (t : SymbolTable) (d : ProcDecl) (p : Procedure) : Except Fault (List Row) := do
  let parameters ← parameterRows t d p
  let (_, bias) ← shownFrom p
  let mark := if p.layout.isLeaf then Mark.leafBeginning bias else .beginning
  let locals ← variableRows t d p
  let lower ← lowerRows d p
  return .ellipsis :: parameters ++ .line (some mark) :: locals ++ lower

/-- The sizes of the areas of a procedure, its diagram, and a blank line. -/
def procedureFrameText (t : SymbolTable) (d : ProcDecl) (p : Procedure) : Except Fault String := do
  let rows ← diagram t d p
  let frameSize ← p.layout.frameSize
  return unlines
    ([ "Variable allocation for procedure '" ++ d.name ++ "':",
        "  - size of argument area = " ++ optionalText p.layout.argumentArea,
        "  - size of localvar area = " ++ optionalText p.layout.localArea,
        "  - size of outgoing area = " ++ optionalText p.layout.outgoingArea,
        "  - frame size = " ++ optionalText frameSize,
        "",
        if p.layout.isLeaf then "  Stack layout (leaf optimized):" else "  Stack layout:" ] ++
      rows.map ("    " ++ ·.text) ++ [""])

/-- The frames of the procedures of a program, in source order. A procedure that the table does not
declare is left out. -/
def frameDump (t : SymbolTable) (program : Program) : Except Fault String := do
  let texts ← program.procedures.filterMapM fun d =>
    match t.procedure? d.name with
    | none => return none
    | some p => return some (← procedureFrameText t d p)
  return String.join texts

end Spl
