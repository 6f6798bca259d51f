import Spl.Proofs.Compile.AssemblyText
import Spl.Proofs.Typing.Reported

/-!
# Types in reports

The report of an error shows types by their texts. Different types have different texts if the names
of fields are symbols. So a report that finds fault with a pair of types never shows the same text
twice, unless the types are the same.

* `SemanticError.Shows`: the types that a report shows.
* `texts_tell_apart`: different types are told apart by their texts, in reports too.
-/

namespace Spl

variable {letters : Char → Prop}

/-- The report of an error shows the type `s` and behind it the type `t`. -/
def SemanticError.Shows (e : SemanticError) (s t : Ty) : Prop :=
  ∃ before between, e.text = before ++ s.text ++ between ++ t.text

/-- The texts of different types of a program are different. -/
theorem Ty.FieldsFrom.text_ne {ns : List String} (hns : ∀ n ∈ ns, IsSymbol letters n) {s t : Ty}
    (hs : s.FieldsFrom ns) (ht : t.FieldsFrom ns) (hne : s ≠ t) : s.text ≠ t.text := by
  intro h
  apply hne
  exact eq_of_text_eq (fun n hn => hns n (hs hn)) (fun n hn => hns n (ht hn)) h

/-- Different types never have the same text, if the names of fields are symbols. So where a program
is refused for the operands of an operator or for an argument, the report shows two different texts.
Where it is refused for an assignment, the texts are different if the types are. -/
theorem texts_tell_apart (letters : Char → Prop) :
    (∀ s t : Ty, (∀ n ∈ s.fieldNames, IsSymbol letters n) →
      (∀ n ∈ t.fieldNames, IsSymbol letters n) → s.text = t.text → s = t) ∧
    ∀ (o : Options) (p : Program) (x : Located SemanticError),
      (∀ n ∈ p.fieldNames, IsSymbol letters n) → (buildAndCheck o p).answer = .error (.error x) →
      (∀ op left right, x.cause = .binaryOperands op left right →
        x.cause.Shows left right ∧ left.text ≠ right.text) ∧
      (∀ procedure number expected actual,
        x.cause = .argumentType procedure number expected actual →
          x.cause.Shows expected actual ∧ expected.text ≠ actual.text) ∧
      ∀ target value, x.cause = .assignment target value →
        x.cause.Shows value target ∧ (target ≠ value → value.text ≠ target.text) := by
  refine ⟨fun s t => Ty.eq_of_text_eq, fun o p x hns hx => ?_⟩
  have hcause : x.cause.Possible p.fieldNames := (buildAndCheck_reports o p).of_error hx
  refine ⟨fun op left right h => ?_, fun procedure number expected actual h => ?_,
    fun target value h => ?_⟩
  · rw [h] at hcause ⊢
    obtain ⟨hne, hleft, hright⟩ := hcause
    exact ⟨⟨_, _, rfl⟩, hleft.text_ne hns hright hne⟩
  · rw [h] at hcause ⊢
    obtain ⟨hne, hexpected, hactual⟩ := hcause
    exact ⟨⟨_, _, rfl⟩, hexpected.text_ne hns hactual hne⟩
  · rw [h] at hcause ⊢
    obtain ⟨htarget, hvalue⟩ := hcause
    exact ⟨⟨_, _, rfl⟩, fun hne => hvalue.text_ne hns htarget (Ne.symm hne)⟩

section
open Build

/-- A record type in which an inner record ends before the field `int`. -/
def closedBefore : Ty := .record [("array", .record [("of", .int)]), ("int", .int)]

/-- A record type in which an inner record ends behind the field `int`. -/
def closedBehind : Ty := .record [("array", .record [("of", .int), ("int", .int)])]

/-- A program that passes a variable of the second type for a parameter of the first one. The names
of the fields are words of the notation. -/
def misplacedBrace : Program := program [
  procDecl "show" [refParam "r" (recordType [
    varDecl "array" (recordType [varDecl "of" intType]), varDecl "int" intType])] [] [],
  procDecl "main" [] [varDecl "v" (recordType [
    varDecl "array" (recordType [varDecl "of" intType, varDecl "int" intType])])] [
    call "show" [var (named "v")]]]

/-- The report shows the place of the brace. -/
theorem texts_tell_apart_misplacedBrace :
    (∀ n ∈ misplacedBrace.fieldNames, IsSymbol (fun _ => False) n) ∧
    (buildAndCheck {} misplacedBrace).answer =
      .error (.error ⟨{}, .argumentType "show" 1 closedBefore closedBehind⟩) ∧
    closedBefore.text ≠ closedBehind.text := by
  have hnames : ∀ n ∈ misplacedBrace.fieldNames, n ≠ "" ∧
      n.toList.all (fun c => c.isAlphanum || c == '_') = true := by decide
  have hsymbols : ∀ n ∈ misplacedBrace.fieldNames, IsSymbol (fun _ => False) n :=
    fun n hn => isSymbol_of_isAlphanum (hnames n hn).1 (hnames n hn).2
  have hanswer : (buildAndCheck {} misplacedBrace).answer =
      .error (.error ⟨{}, .argumentType "show" 1 closedBefore closedBehind⟩) :=
    eq_error_of_decide (by decide +kernel)
  obtain ⟨-, hreports⟩ := texts_tell_apart fun _ => False
  obtain ⟨-, harguments, -⟩ := hreports {} misplacedBrace _ hsymbols hanswer
  exact ⟨hsymbols, hanswer, (harguments _ _ _ _ rfl).2⟩

end

end Spl
