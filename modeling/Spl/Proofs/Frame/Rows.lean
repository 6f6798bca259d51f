import Mathlib.Data.List.Infix
import Spl.Proofs.Assembly.Reader
import Spl.Proofs.Frame.Diagram

/-!
# What diagrams print

The text of a row says what lies there and where: the name of a variable or of a word of the frame,
the base register and the distance from it. It is said here letter by letter, apart from the
functions that write it.

* `Noted`: the text beside a row, by the base and the distance that it names.
* `Row.Prints`: the text of a row. A row whose place or contents are not known has none.
* `ShowsAll.prints`: the rows of a diagram whose places are known are printed so.
* `Row.Prints.variable_of_infix`: the words that stand for something unknown are in no row, unless
  the name of a variable holds them.
-/

namespace Spl

/-! ## Texts of rows -/

/-- The text beside a row whose place lies `n` bytes above the base. -/
inductive Noted : Base → Int → String → Prop
  | aboveFrame (n : Int) : Noted .framePointer n ("<- FP + " ++ toString n)
  | belowFrame (n : Int) : Noted .framePointer (-n) ("<- FP - " ++ toString n)
  | aboveStack (n : Int) : Noted .stackPointer n ("<- SP + " ++ toString n)
  | belowStack (n : Int) : Noted .stackPointer (-n) ("<- SP - " ++ toString n)

/-- What stands in a row for its contents. -/
inductive Cell.Labels : Cell → String → Prop
  | parameter (name : String) : Labels (.parameter name) ("par " ++ name)
  | localVariable (name : String) : Labels (.localVariable name) ("var " ++ name)
  | oldFramePointer : Labels .oldFramePointer "Old FP"
  | returnAddress : Labels .returnAddress "Old Return"
  | argument (number : Nat) : Labels (.argument number) ("arg " ++ toString number)

/-- The text of a row: contents and place of a cell, which is filled up with blanks, or a line with
what it marks. -/
inductive Row.Prints : Row → String → Prop
  | ellipsis : Prints .ellipsis "|      ...       |"
  | cell {c : Cell} {q : Place} {base : Base} {n : Int} {label note : String}
      (hlabel : c.Labels label) (hq : q.operand = some (base, n)) (hnote : Noted base n note) :
      Prints (.cell c (some q))
        ("| " ++ (label ++ String.ofList (List.replicate (15 - label.length) ' ')) ++ "| " ++ note)
  | rule : Prints (.line none) "+----------------+"
  | beginning : Prints (.line (some .beginning)) "+----------------+ BEGIN <- FP"
  | leafBeginning (size : Word) : Prints (.line (some (.leafBeginning size)))
      ("+----------------+ BEGIN <- SP + " ++ toString size.toInt)
  | outgoingArea : Prints (.line (some .outgoingArea)) "+----------------+ outgoing area"
  | ending : Prints (.line (some .ending)) "+----------------+ END <- SP"
  | leafEnding : Prints (.line (some .leafEnding)) "+----------------+ END"

/-- The text of a place names the base and the distance of the place. -/
theorem Place.text_noted {q : Place} {base : Base} {n : Int}
    (h : q.operand = some (base, n)) : Noted base n q.text := by
  cases q with
  | above b distance =>
    cases distance with
    | none => cases h
    | some w =>
      cases h
      cases base with
      | framePointer => exact .aboveFrame w.toInt
      | stackPointer => exact .aboveStack w.toInt
  | below b distance =>
    cases distance with
    | none => cases h
    | some w =>
      cases h
      cases base with
      | framePointer => exact .belowFrame w.toInt
      | stackPointer => exact .belowStack w.toInt
  | inconsistent b own callers => cases h

theorem Cell.text_labels {c : Cell} (h : c ≠ .unknownArguments) : c.Labels c.text := by
  cases c with
  | parameter name => exact .parameter name
  | localVariable name => exact .localVariable name
  | oldFramePointer => exact .oldFramePointer
  | returnAddress => exact .returnAddress
  | argument number => exact .argument number
  | unknownArguments => exact absurd rfl h

theorem Mark.prints (mark : Option Mark) : (Row.line mark).Prints (Row.line mark).text := by
  cases mark with
  | none => exact .rule
  | some mark =>
    cases mark with
    | beginning => exact .beginning
    | leafBeginning size => exact .leafBeginning size
    | outgoingArea => exact .outgoingArea
    | ending => exact .ending
    | leafEnding => exact .leafEnding

/-- Rows of which each cell has a known place are printed with their contents and places. -/
theorem ShowsAll.prints {t : SymbolTable} {a : Addressing} {entry : List Line} {rows : List Row}
    (h : ShowsAll t a entry rows) : List.Forall₂ Row.Prints rows (rows.map Row.text) := by
  rw [List.forall₂_map_right_iff, List.forall₂_same]
  intro row hrow
  cases row with
  | ellipsis => exact .ellipsis
  | cell c place =>
    obtain ⟨q, base, n, rfl, hq, hc⟩ := h c place hrow
    have hknown : c ≠ .unknownArguments := by
      rintro rfl
      exact hc
    exact .cell (Cell.text_labels hknown) hq (Place.text_noted hq)
  | line mark => exact Mark.prints mark

/-! ## Words in rows -/

/-- What occurs behind a text without its first letter occurs in the text behind. -/
theorem infix_of_infix_append {w a b : List Char} (hw : w ≠ [])
    (ha : ∀ x ∈ a, w.head? ≠ some x) (h : w <:+: a ++ b) : w <:+: b := by
  induction a with
  | nil => exact h
  | cons x a ih =>
    rw [List.forall_mem_cons] at ha
    rw [List.cons_append, List.infix_cons_iff, List.prefix_cons_iff] at h
    rcases h with (rfl | ⟨w', rfl, -⟩) | h
    · exact absurd rfl hw
    · exact absurd rfl ha.1
    · exact ih ha.2 h

/-- What occurs in front of a text without its last letter occurs in the text in front. -/
theorem infix_of_append_infix {w a b : List Char} (hw : w ≠ [])
    (hb : ∀ x ∈ b, w.getLast? ≠ some x) (h : w <:+: a ++ b) : w <:+: a := by
  rw [← List.reverse_infix, List.reverse_append] at h
  rw [← List.reverse_infix]
  refine infix_of_infix_append (fun hnil => hw (List.reverse_eq_nil_iff.1 hnil))
    (fun x hx => ?_) h
  rw [List.head?_reverse]
  exact hb x (List.mem_reverse.1 hx)

/-- A word that stands for something unknown. -/
def unknownWords : List String := ["INCONSISTENT", "NULL", "UNKNOWN SIZE"]

/-- The letters of a number are digits, or the sign. -/
theorem mem_toString_int {n : Int} {x : Char} (hx : x ∈ (toString n).toList) :
    x.isDigit = true ∨ x = '-' := by
  rw [Int.toString_eq_repr, Int.repr_eq_if] at hx
  split at hx
  · exact .inl (isDigit_of_mem_toString hx)
  · rw [String.toList_append, List.mem_append] at hx
    rcases hx with hx | hx
    · exact .inr (List.mem_singleton.1 hx)
    · exact .inl (isDigit_of_mem_toString hx)

/-- True of the characters beside the contents of a row: digits, and those of registers and
signs. -/
def isBeside (x : Char) : Bool :=
  x.isDigit || ['<', '-', ' ', '+', 'F', 'S', 'P', '|'].contains x

/-- True of the characters in front of a name. -/
def isInFront (x : Char) : Bool := ['|', ' ', 'p', 'a', 'r', 'v'].contains x

theorem isBeside_of_isDigit {x : Char} (hx : x.isDigit = true) : isBeside x = true := by
  rw [isBeside, hx, Bool.true_or]

theorem isBeside_of_mem_number {n : Int} {x : Char} (hx : x ∈ (toString n).toList) :
    isBeside x = true := by
  rcases mem_toString_int hx with h | rfl
  · exact isBeside_of_isDigit h
  · decide

theorem Noted.beside {base : Base} {n : Int} {note : String} (h : Noted base n note) :
    ∀ x ∈ note.toList, isBeside x = true := by
  have hsplit {s : String} (hs : s.toList.all isBeside = true) (k : Int) :
      ∀ x ∈ (s ++ toString k).toList, isBeside x = true := by
    rw [String.toList_append]
    exact List.forall_mem_append.2 ⟨List.all_eq_true.1 hs, fun x hx => isBeside_of_mem_number hx⟩
  cases h <;> exact hsplit (by decide) _

section

variable {w : String}

theorem ne_nil_of_unknown (hw : w ∈ unknownWords) : w.toList ≠ [] := by
  revert w
  decide

/-- None of these words begins with a character in front of a name. -/
theorem head?_ne_of_unknown (hw : w ∈ unknownWords) {x : Char} (hx : isInFront x = true) :
    w.toList.head? ≠ some x := by
  have hhead : w.toList.head?.all (!isInFront ·) = true := by
    revert w
    decide
  intro heq
  rw [heq, Option.all_some, hx] at hhead
  cases hhead

/-- None of these words ends with a character beside the contents of a row. -/
theorem getLast?_ne_of_unknown (hw : w ∈ unknownWords) {x : Char} (hx : isBeside x = true) :
    w.toList.getLast? ≠ some x := by
  have hlast : w.toList.getLast?.all (!isBeside ·) = true := by
    revert w
    decide
  intro heq
  rw [heq, Option.all_some, hx] at hlast
  cases hlast

/-- Such a word behind characters that stand in front of a name is in what follows them. -/
theorem infix_of_front {front : String} {cs : List Char} (hw : w ∈ unknownWords)
    (hfront : front.toList.all isInFront = true) (h : w.toList <:+: front.toList ++ cs) :
    w.toList <:+: cs :=
  infix_of_infix_append (ne_nil_of_unknown hw)
    (fun x hx => head?_ne_of_unknown hw (List.all_eq_true.1 hfront x hx)) h

/-- Such a word in front of characters that stand beside the contents is in what precedes them. -/
theorem infix_of_beside {cs behind : List Char} (hw : w ∈ unknownWords)
    (hbehind : ∀ x ∈ behind, isBeside x = true) (h : w.toList <:+: cs ++ behind) :
    w.toList <:+: cs :=
  infix_of_append_infix (ne_nil_of_unknown hw)
    (fun x hx => getLast?_ne_of_unknown hw (hbehind x hx)) h

/-- Such a word does not occur in a text in which none of them does. -/
theorem elim_of_infix {text : String} {q : Prop}
    (htext : ∀ w ∈ unknownWords, ¬ w.toList <:+: text.toList) (hw : w ∈ unknownWords)
    (h : w.toList <:+: text.toList) : q := absurd h (htext w hw)

/-- Such a word in the text of a cell is in its contents. -/
theorem infix_label {label note : String} {base : Base} {n : Int} {k : Nat}
    (hw : w ∈ unknownWords) (hnote : Noted base n note)
    (h : w.toList <:+:
      ("| " ++ (label ++ String.ofList (List.replicate k ' ')) ++ "| " ++ note).toList) :
    w.toList <:+: label.toList := by
  have hbehind : ∀ x ∈ List.replicate k ' ' ++ ("| ".toList ++ note.toList),
      isBeside x = true := by
    have hblanks : ∀ x ∈ List.replicate k ' ', isBeside x = true := fun x hx => by
      rw [List.eq_of_mem_replicate hx]
      decide
    have hborder : "| ".toList.all isBeside = true := by decide
    exact List.forall_mem_append.2 ⟨hblanks,
      List.forall_mem_append.2 ⟨List.all_eq_true.1 hborder, hnote.beside⟩⟩
  simp only [String.toList_append, String.toList_ofList, List.append_assoc] at h
  exact infix_of_beside hw hbehind (infix_of_front hw (by decide) h)

/-- Such a word in the contents of a cell is in the name of a variable. -/
theorem Cell.Labels.variable_of_infix {c : Cell} {label : String} (hw : w ∈ unknownWords)
    (hlabel : c.Labels label) (h : w.toList <:+: label.toList) :
    ∃ name, c.variable? = some name ∧ w.toList <:+: name.toList := by
  cases hlabel with
  | parameter name | localVariable name =>
    rw [String.toList_append] at h
    exact ⟨name, rfl, infix_of_front hw (by decide) h⟩
  | oldFramePointer | returnAddress => exact elim_of_infix (by decide) hw h
  | argument number =>
    rw [String.toList_append] at h
    have h := infix_of_beside hw
      (fun x hx => isBeside_of_isDigit (isDigit_of_mem_toString hx)) h
    exact elim_of_infix (by decide) hw h

/-- Such a word in a row is in the name of a variable that the row shows. -/
theorem Row.Prints.variable_of_infix {row : Row} {line : String} (hw : w ∈ unknownWords)
    (hrow : row.Prints line) (h : w.toList <:+: line.toList) :
    ∃ c name, row.content? = some c ∧ c.variable? = some name ∧ w.toList <:+: name.toList := by
  cases hrow with
  | cell hlabel _ hnote =>
    obtain ⟨name, hc, hname⟩ := hlabel.variable_of_infix hw (infix_label hw hnote h)
    exact ⟨_, name, rfl, hc, hname⟩
  | leafBeginning size =>
    rw [String.toList_append] at h
    have h := infix_of_beside hw (fun x hx => isBeside_of_mem_number hx) h
    exact elim_of_infix (by decide) hw h
  | ellipsis | rule | beginning | outgoingArea | ending | leafEnding =>
    exact elim_of_infix (by decide) hw h

end

end Spl
