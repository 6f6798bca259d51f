import Mathlib.Data.List.Basic
import Spl.Proofs.Assembly.Reader
import Spl.Ty.Basic

/-!
# The notation of types

The notation of a type has no brackets around the base of an array or around the type of a field.
Still, a type is known from the text that it begins, whatever stands behind it: the first letter
tells its kind, a length ends at its bracket, the name of a field at its colon, and the character
behind the type of a field tells whether another field follows. So different types have different
texts.

* `Ty.fieldNames`: the names of fields in a type.
* `Ty.eq_of_text_append_eq`: no text of a type is the beginning of another one.
* `Ty.eq_of_text_eq`: different types have different texts.
-/

namespace Spl

variable {letters : Char → Prop}

/-- Of the characters of ASCII, a symbol has letters, digits and underscores only. -/
theorem IsSymbol.not_mem {name : String} (h : IsSymbol letters name) {c : Char}
    (hc : c.isAlphanum = false ∧ c ≠ '_' ∧ c.toNat < 128) : c ∉ name.toList := by
  intro hmem
  rcases h.2 c hmem with hletter | hunderscore | ⟨hbeyond, -⟩
  · rw [hc.1] at hletter
    cases hletter
  · exact hc.2.1 hunderscore
  · omega

namespace Ty

mutual

/-- The names of the fields of all records in a type. -/
def fieldNames : Ty → List String
  | .int | .bool => []
  | .array _ base => base.fieldNames
  | .record fields => fieldNamesOf fields

/-- The names of the given fields, and of the fields in their types. -/
def fieldNamesOf : List (String × Ty) → List String
  | [] => []
  | (name, type) :: fields => name :: (type.fieldNames ++ fieldNamesOf fields)

end

/-! ## The parts of a text -/

/-- The first letter of the text of a type, which tells its kind. -/
def initial : Ty → Char
  | .int => 'i'
  | .bool => 'b'
  | .array .. => 'a'
  | .record _ => 'r'

/-- What stands between the type of a field and the fields that follow. -/
def separator : List (String × Ty) → List Char
  | [] => []
  | _ :: _ => [';', ' ']

/-- The text of a record behind the opening brace. -/
def bracedText : List (String × Ty) → List Char
  | [] => [' ', '}']
  | (name, type) :: fields =>
    name.toList ++ ':' :: ' ' :: (type.text.toList ++ (separator fields ++ bracedText fields))

theorem toList_text_array (length : UInt32) (base : Ty) : (array length base).text.toList =
    "array [".toList ++ ((toString length.toNat).toList ++ ']' :: (" of ".toList ++
      base.text.toList)) := by
  simp [text]

theorem toList_intercalate_fieldTexts : ∀ fields : List (String × Ty),
    ("; ".intercalate (fieldTexts fields)).toList ++ [' ', '}'] = bracedText fields
  | [] => by simp [fieldTexts, bracedText]
  | [(name, type)] => by simp [fieldTexts, bracedText, separator]
  | (name, type) :: f :: fields => by
    have ih := toList_intercalate_fieldTexts (f :: fields)
    rw [bracedText, ← ih]
    simp [fieldTexts, separator]

theorem toList_text_record (fields : List (String × Ty)) :
    (record fields).text.toList = "record \x7b ".toList ++ bracedText fields := by
  rw [← toList_intercalate_fieldTexts, text, String.toList_append, String.toList_append,
    List.append_assoc]
  rfl

theorem head?_text (ty : Ty) : ty.text.toList.head? = some ty.initial := by
  cases ty <;> simp [text, initial]

variable {s t : Ty} {x y : List Char}

theorem initial_eq (h : s.text.toList ++ x = t.text.toList ++ y) : s.initial = t.initial := by
  have hhead := congrArg List.head? h
  rw [List.head?_append, List.head?_append, head?_text, head?_text] at hhead
  exact Option.some.inj hhead

/-- What stands before the first occurrence of a character is known. -/
theorem eq_of_append_cons_eq {c : Char} {a b : List Char} (ha : c ∉ a) (hb : c ∉ b)
    (h : a ++ c :: x = b ++ c :: y) : a = b ∧ x = y := by
  have hlength := congrArg (List.idxOf c) h
  rw [List.idxOf_append_of_notMem ha, List.idxOf_append_of_notMem hb, List.idxOf_cons_self,
    List.idxOf_cons_self] at hlength
  obtain ⟨rfl, htail⟩ := List.append_inj h hlength
  exact ⟨rfl, (List.cons.inj htail).2⟩

/-- The length of an array ends at the bracket. -/
theorem length_eq {m n : UInt32} (h : (toString m.toNat).toList ++ ']' :: x =
    (toString n.toNat).toList ++ ']' :: y) : m = n ∧ x = y := by
  have hbracket (k : Nat) : ']' ∉ (toString k).toList := fun hmem =>
    absurd (isDigit_of_mem_toString hmem) (by decide)
  obtain ⟨hdigits, hxy⟩ := eq_of_append_cons_eq (hbracket _) (hbracket _) h
  have hread := congrArg natural? hdigits
  rw [natural?_repr, natural?_repr] at hread
  exact ⟨UInt32.toNat_inj.1 (Option.some.inj hread), hxy⟩

/-- The name of a field ends at the colon. -/
theorem name_eq {m n : String} (hm : IsSymbol letters m) (hn : IsSymbol letters n)
    (h : m.toList ++ ':' :: x = n.toList ++ ':' :: y) : m = n ∧ x = y := by
  obtain ⟨hname, hxy⟩ := eq_of_append_cons_eq (hm.not_mem (by decide)) (hn.not_mem (by decide)) h
  exact ⟨String.toList_inj.1 hname, hxy⟩

/-- The closing brace of an empty record follows a blank, with which no name begins. -/
theorem bracedText_nil_ne {n : String} {t : Ty} {gs : List (String × Ty)}
    (hn : IsSymbol letters n) : bracedText [] ++ x ≠ bracedText ((n, t) :: gs) ++ y := by
  intro h
  have hblank : ' ' ∉ n.toList := hn.not_mem (by decide)
  cases hlist : n.toList with
  | nil => exact hn.1 (String.toList_eq_nil_iff.1 hlist)
  | cons c cs =>
    rw [bracedText, bracedText, hlist] at h
    simp only [List.cons_append, List.cons.injEq] at h
    rw [hlist, ← h.1] at hblank
    exact hblank (.head _)

/-- Behind the type of a field, a semicolon tells that another field follows. -/
theorem bracedText_eq_of_separator {fs gs : List (String × Ty)}
    (h : separator fs ++ bracedText fs ++ x = separator gs ++ bracedText gs ++ y) :
    bracedText fs ++ x = bracedText gs ++ y := by
  cases fs with
  | nil =>
    cases gs with
    | nil => exact h
    | cons => simp [separator, bracedText] at h
  | cons =>
    cases gs with
    | nil => simp [separator, bracedText] at h
    | cons => simpa [separator] using h

/-! ## Different types -/

mutual

/-- A type is known from any text that begins with its own. -/
theorem eq_of_text_append_eq : ∀ {s t : Ty} {x y : List Char},
    (∀ n ∈ s.fieldNames, IsSymbol letters n) → (∀ n ∈ t.fieldNames, IsSymbol letters n) →
    s.text.toList ++ x = t.text.toList ++ y → s = t ∧ x = y
  | .int, t, x, y, _, _, h => by
    have hinitial := initial_eq h
    cases t with
    | int => exact ⟨rfl, List.append_cancel_left h⟩
    | _ => simp [initial] at hinitial
  | .bool, t, x, y, _, _, h => by
    have hinitial := initial_eq h
    cases t with
    | bool => exact ⟨rfl, List.append_cancel_left h⟩
    | _ => simp [initial] at hinitial
  | .array m s, t, x, y, hs, ht, h => by
    have hinitial := initial_eq h
    cases t with
    | array n t =>
      rw [toList_text_array, toList_text_array] at h
      simp only [List.append_assoc, List.cons_append, List.append_cancel_left_eq] at h
      obtain ⟨rfl, hbase⟩ := length_eq h
      obtain ⟨rfl, hxy⟩ := eq_of_text_append_eq (s := s) (t := t) hs ht
        (List.append_cancel_left hbase)
      exact ⟨rfl, hxy⟩
    | _ => simp [initial] at hinitial
  | .record fs, t, x, y, hs, ht, h => by
    have hinitial := initial_eq h
    cases t with
    | record gs =>
      rw [toList_text_record, toList_text_record] at h
      simp only [List.append_assoc, List.append_cancel_left_eq] at h
      obtain ⟨rfl, hxy⟩ := eq_of_bracedText_append_eq hs ht h
      exact ⟨rfl, hxy⟩
    | _ => simp [initial] at hinitial

/-- The fields of a record are known from any text that begins with theirs. -/
theorem eq_of_bracedText_append_eq : ∀ {fs gs : List (String × Ty)} {x y : List Char},
    (∀ n ∈ fieldNamesOf fs, IsSymbol letters n) → (∀ n ∈ fieldNamesOf gs, IsSymbol letters n) →
    bracedText fs ++ x = bracedText gs ++ y → fs = gs ∧ x = y
  | [], [], _, _, _, _, h => ⟨rfl, List.append_cancel_left h⟩
  | [], (n, t) :: gs, _, _, _, ht, h => absurd h (bracedText_nil_ne (ht n (.head _)))
  | (m, s) :: fs, [], _, _, hs, _, h => absurd h.symm (bracedText_nil_ne (hs m (.head _)))
  | (m, s) :: fs, (n, t) :: gs, x, y, hs, ht, h => by
    simp only [fieldNamesOf, List.forall_mem_cons, List.forall_mem_append] at hs ht
    obtain ⟨hm, hs, hfs⟩ := hs
    obtain ⟨hn, ht, hgs⟩ := ht
    simp only [bracedText, List.append_assoc, List.cons_append] at h
    obtain ⟨rfl, htype⟩ := name_eq hm hn h
    obtain ⟨rfl, hfields⟩ := eq_of_text_append_eq hs ht (List.cons_inj_right _ |>.1 htype)
    obtain ⟨rfl, hxy⟩ := eq_of_bracedText_append_eq hfs hgs
      (bracedText_eq_of_separator (by simpa using hfields))
    exact ⟨rfl, hxy⟩

end

/-- Different types have different texts. -/
theorem eq_of_text_eq {s t : Ty} (hs : ∀ n ∈ s.fieldNames, IsSymbol letters n)
    (ht : ∀ n ∈ t.fieldNames, IsSymbol letters n) (h : s.text = t.text) : s = t :=
  (eq_of_text_append_eq (x := []) (y := []) hs ht (by rw [h])).1

/-- A name with other characters can stand for two fields. -/
example : (record [("a: int; b", .int)]).text = (record [("a", .int), ("b", .int)]).text := by
  decide

end Ty

end Spl
