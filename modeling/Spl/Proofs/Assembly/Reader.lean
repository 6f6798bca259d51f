import Mathlib.Data.List.DropRight
import Mathlib.Data.List.TakeWhile
import Spl.Assembly.Line
import Spl.Proofs.Word

/-!
# Reading assembly

A reader of the assembly text. A line feed ends each line; a line ends in a comment from its first
semicolon on; the rest consists of columns between tabs, and the last column of operands between
commas. Names, numbers and registers are written without these separators, so the reader gets back
every list of lines from its text.

* `IsSymbol`, `Line.Readable`: the names and the comments for which the text is read back.
* `Inst.read?`, `Line.read?`, `assembly?`: the reader.
* `Inst.read?_text`, `Line.read?_text`, `assembly?_assemblyText`: reading is the inverse of writing.
* `assemblyText_injective`: different lists have different texts.
-/

namespace Spl

/-! ## Names and comments -/

/-- A name of letters, digits and underscores. Beyond ASCII, `letters` says what a letter is. -/
def IsSymbol (letters : Char → Prop) (name : String) : Prop :=
  name ≠ "" ∧ ∀ c ∈ name.toList, c.isAlphanum = true ∨ c = '_' ∨ 128 ≤ c.toNat ∧ letters c

/-- The names in an instruction, directive or label. -/
def Inst.symbols : Inst → List String
  | .importName name | .exportName name | .label name | .branch _ _ _ name | .jump name
  | .call name => [name]
  | .code | .align _ | .blank | .alu .. | .load .. | .store .. | .jumpRegister _ => []

/-- A line whose names are symbols and whose comment stays on the line. -/
structure Line.Readable (letters : Char → Prop) (l : Line) : Prop where
  symbols : ∀ name ∈ l.inst.symbols, IsSymbol letters name
  comment : ∀ c, l.comment = some c → '\n' ∉ c.toList

/-! ## The reader -/

/-- The number with the given decimal digits. -/
def natural? (digits : List Char) : Option Nat :=
  if digits ≠ [] ∧ digits.all Char.isDigit then some (Nat.ofDigitChars 10 digits 0) else none

/-- A word from its decimal digits, which follow a minus sign if it is negative. -/
def Word.read? : List Char → Option Word
  | '-' :: digits => (natural? digits).bind fun n => ofInt? (-n)
  | digits => (natural? digits).bind fun n => ofInt? n

/-- A register from its number, which follows a dollar sign. -/
def Reg.read? : List Char → Option Reg
  | '$' :: digits => (natural? digits).map Reg.mk
  | _ => none

/-- The last operand of an arithmetic instruction. -/
def Operand.read? (cs : List Char) : Option Operand :=
  ((Reg.read? cs).map .register).or ((Word.read? cs).map .immediate)

/-- The arithmetic operation with the given mnemonic. -/
def AluOp.read? (mnemonic : String) : Option AluOp :=
  [add, sub, mul, div].find? (·.mnemonic = mnemonic)

/-- The branch with the given mnemonic. -/
def Cond.read? (mnemonic : String) : Option Cond :=
  [eq, ne, lt, le, gt, ge, geu].find? (·.mnemonic = mnemonic)

namespace Inst

/-- A directive or an instruction from its mnemonic and its operands. -/
def ofColumns? (mnemonic : String) (operands : List (List Char)) : Option Inst :=
  match mnemonic, operands with
  | ".import", [name] => some (.importName (String.ofList name))
  | ".export", [name] => some (.exportName (String.ofList name))
  | ".align", [bytes] => return .align (← natural? bytes)
  | "ldw", [r, base, offset] =>
    return .load (← Reg.read? r) (← Reg.read? base) (← Word.read? offset)
  | "stw", [r, base, offset] =>
    return .store (← Reg.read? r) (← Reg.read? base) (← Word.read? offset)
  | "j", [name] => some (.jump (String.ofList name))
  | "jr", [r] => return .jumpRegister (← Reg.read? r)
  | "jal", [name] => some (.call (String.ofList name))
  | mnemonic, [r, s, last] =>
    match AluOp.read? mnemonic with
    | some op => return .alu op (← Reg.read? r) (← Reg.read? s) (← Operand.read? last)
    | none =>
      return .branch (← Cond.read? mnemonic) (← Reg.read? r) (← Reg.read? s) (String.ofList last)
  | _, _ => none

/-- An instruction, directive or label without a comment. Only a label stands at the margin. -/
def read? (cs : List Char) : Option Inst :=
  match cs.splitOn '\t' with
  | [[]] => some .blank
  | [margin] =>
    if margin.getLast? = some ':' then some (.label (String.ofList margin.dropLast)) else none
  | [[], mnemonic] => if String.ofList mnemonic = ".code" then some .code else none
  | [[], mnemonic, operands] => ofColumns? (String.ofList mnemonic) (operands.splitOn ',')
  | _ => none

end Inst

/-- A line. The comment begins behind a semicolon and a blank, and the tabs in front of it belong
to it. -/
def Line.read? (cs : List Char) : Option Line :=
  match cs.dropWhile (· ≠ ';') with
  | [] => (Inst.read? cs).map fun inst => { inst }
  | ';' :: ' ' :: comment =>
    (Inst.read? ((cs.takeWhile (· ≠ ';')).rdropWhile (· = '\t'))).map fun inst =>
      { inst, comment := some (String.ofList comment) }
  | _ => none

/-- The lines of an assembly text. The last line is ended like the others. -/
def assembly? (text : String) : Option (List Line) :=
  let pieces := text.toList.splitOn '\n'
  if pieces.getLast? = some [] then pieces.dropLast.mapM Line.read? else none

/-! ## Numbers and registers -/

theorem isDigit_of_mem_toString {n : Nat} {c : Char} (hc : c ∈ (toString n).toList) :
    c.isDigit = true := by
  rw [Nat.toString_eq_repr, Nat.toList_repr] at hc
  exact Nat.isDigit_of_mem_toDigits (by decide) (by decide) hc

theorem natural?_repr (n : Nat) : natural? (toString n).toList = some n := by
  have hdigits : ∀ c ∈ Nat.toDigits 10 n, c.isDigit = true := fun c hc =>
    Nat.isDigit_of_mem_toDigits (by decide) (by decide) hc
  rw [Nat.toString_eq_repr, Nat.toList_repr, natural?,
    if_pos ⟨Nat.toDigits_ne_nil, List.all_eq_true.2 hdigits⟩, Nat.ofDigitChars_ten_toDigits]

theorem Reg.toList_text (r : Reg) : r.text.toList = '$' :: (toString r.number).toList := by
  rw [text, String.toList_append]
  rfl

theorem Reg.read?_text (r : Reg) : read? r.text.toList = some r := by
  rw [toList_text, read?, natural?_repr]
  rfl

/-- The first letter of a number is a digit. -/
theorem exists_digit_cons (n : Nat) : ∃ c cs, (toString n).toList = c :: cs ∧ c.isDigit = true := by
  have hne : (toString n).toList ≠ [] := by
    rw [Nat.toString_eq_repr, Nat.toList_repr]
    exact Nat.toDigits_ne_nil
  obtain ⟨c, cs, h⟩ := List.exists_cons_of_ne_nil hne
  exact ⟨c, cs, h, isDigit_of_mem_toString (h ▸ List.mem_cons_self)⟩

theorem Word.text_cases (w : Word) :
    (∃ n : Nat, w.toInt = n ∧ w.text = toString n) ∨
      ∃ n : Nat, w.toInt = -n ∧ w.text = "-" ++ toString n := by
  rw [text, Int.toString_eq_repr, Int.repr_eq_if]
  split
  · exact .inl ⟨w.toInt.toNat, by omega, rfl⟩
  · exact .inr ⟨(-w.toInt).toNat, by omega, rfl⟩

theorem Word.read?_text (w : Word) : read? w.text.toList = some w := by
  rcases w.text_cases with ⟨n, hn, htext⟩ | ⟨n, hn, htext⟩
  · obtain ⟨c, cs, hcs, hc⟩ := exists_digit_cons n
    have hread : read? (c :: cs) = (natural? (c :: cs)).bind fun n => ofInt? n := by
      unfold read?
      split
      · next h =>
        cases h
        exact absurd hc (by decide)
      · rfl
    rw [htext, hcs, hread, ← hcs, natural?_repr, Option.bind_some, ofInt?_eq_some_iff, hn]
  · rw [htext, String.toList_append]
    show (natural? (toString n).toList).bind _ = _
    rw [natural?_repr, Option.bind_some, ofInt?_eq_some_iff, hn]

/-- No number is a register. -/
theorem Reg.read?_word (w : Word) : read? w.text.toList = none := by
  have hne : ∀ c cs, c ≠ '$' → read? (c :: cs) = none := fun c cs hc => by
    unfold read?
    split
    · next h =>
      cases h
      exact absurd rfl hc
    · rfl
  rcases w.text_cases with ⟨n, -, htext⟩ | ⟨n, -, htext⟩
  · obtain ⟨c, cs, hcs, hc⟩ := exists_digit_cons n
    rw [htext, hcs]
    refine hne c cs ?_
    rintro rfl
    exact absurd hc (by decide)
  · rw [htext, String.toList_append]
    exact hne '-' _ (by decide)

theorem Operand.read?_text (o : Operand) : read? o.text.toList = some o := by
  cases o with
  | register r =>
    rw [text, read?, Reg.read?_text]
    rfl
  | immediate w =>
    rw [text, read?, Reg.read?_word, Word.read?_text]
    rfl

/-! ## Separators -/

/-- The characters that divide a text into lines, columns, operands and comments. -/
def separators : List Char := ['\t', '\n', ',', ';', ':']

/-- Text between two separators. -/
def Plain (cs : List Char) : Prop := cs ≠ [] ∧ ∀ c ∈ cs, c ∉ separators

theorem plain_of_all {cs : List Char} (hne : cs ≠ [])
    (h : cs.all (fun c => decide (c ∉ separators)) = true) : Plain cs :=
  ⟨hne, fun c hc => of_decide_eq_true (List.all_eq_true.1 h c hc)⟩

/-- Letters, digits and some marks are no separators, and neither is anything beyond ASCII. -/
theorem not_mem_separators {c : Char}
    (h : c.isAlphanum = true ∨ c ∈ ['_', '$', '-', '.'] ∨ 128 ≤ c.toNat) : c ∉ separators := by
  have hs : separators.all (fun s => !s.isAlphanum && decide (s ∉ ['_', '$', '-', '.']) &&
      decide (s.toNat < 128)) = true := by decide
  intro hc
  obtain ⟨⟨h₁, h₂⟩, h₃⟩ : (c.isAlphanum = false ∧ c ∉ ['_', '$', '-', '.']) ∧ c.toNat < 128 := by
    simpa only [Bool.and_eq_true, Bool.not_eq_true', decide_eq_true_eq] using
      List.all_eq_true.1 hs c hc
  rcases h with h | h | h
  · rw [h₁] at h
    cases h
  · exact h₂ h
  · omega

theorem IsSymbol.plain {letters : Char → Prop} {name : String} (h : IsSymbol letters name) :
    Plain name.toList := by
  refine ⟨fun hnil => h.1 (String.toList_inj.1 hnil), fun c hc => not_mem_separators ?_⟩
  rcases h.2 c hc with h | rfl | h
  · exact .inl h
  · exact .inr (.inl (.head _))
  · exact .inr (.inr h.1)

theorem plain_repr (n : Nat) : Plain (toString n).toList := by
  obtain ⟨c, cs, hcs, -⟩ := exists_digit_cons n
  refine ⟨by rw [hcs]; exact List.cons_ne_nil c cs, fun c hc => not_mem_separators (.inl ?_)⟩
  rw [Char.isAlphanum, isDigit_of_mem_toString hc, Bool.or_true]

theorem plain_cons {c : Char} {cs : List Char} (hc : c ∉ separators) (h : Plain cs) :
    Plain (c :: cs) :=
  ⟨List.cons_ne_nil c cs, List.forall_mem_cons.2 ⟨hc, h.2⟩⟩

theorem Reg.plain_text (r : Reg) : Plain r.text.toList := by
  rw [toList_text]
  exact plain_cons (by decide) (plain_repr _)

theorem Word.plain_text (w : Word) : Plain w.text.toList := by
  rcases w.text_cases with ⟨n, -, htext⟩ | ⟨n, -, htext⟩
  · rw [htext]
    exact plain_repr n
  · rw [htext, String.toList_append]
    exact plain_cons (by decide) (plain_repr n)

theorem Operand.plain_text (o : Operand) : Plain o.text.toList := by
  cases o with
  | register r => exact r.plain_text
  | immediate w => exact w.plain_text

theorem AluOp.plain_mnemonic (op : AluOp) : Plain op.mnemonic.toList := by
  cases op <;> exact plain_of_all (by decide) (by decide)

theorem Cond.plain_mnemonic (c : Cond) : Plain c.mnemonic.toList := by
  cases c <;> exact plain_of_all (by decide) (by decide)

/-! ## Instructions -/

theorem mem_intercalate {x c : Char} {ls : List (List Char)} (h : c ∈ [x].intercalate ls) :
    c = x ∨ ∃ l ∈ ls, c ∈ l := by
  induction ls with
  | nil => cases h
  | cons l ls ih =>
    cases ls with
    | nil =>
      rw [List.intercalate_singleton] at h
      exact .inr ⟨l, .head _, h⟩
    | cons l' ls =>
      rw [List.intercalate_cons_cons, List.append_assoc, List.mem_append, List.singleton_append,
        List.mem_cons] at h
      rcases h with h | rfl | h
      · exact .inr ⟨l, .head _, h⟩
      · exact .inl rfl
      · exact (ih h).imp_right fun ⟨l, hl, hc⟩ => ⟨l, .tail _ hl, hc⟩

namespace Inst

variable {letters : Char → Prop} {mnemonic : String} {operands : List String}

/-- A directive or an instruction is written in columns, from which it is read back. -/
structure Columns (inst : Inst) (mnemonic : String) (operands : List String) : Prop where
  text_eq : inst.text = columns mnemonic operands
  plain_mnemonic : Plain mnemonic.toList
  ne_nil : operands ≠ []
  plain_operands : ∀ o ∈ operands, Plain o.toList
  read_eq : ofColumns? mnemonic (operands.map String.toList) = some inst

/-- How instructions, directives and labels are written. -/
theorem text_cases {inst : Inst} (h : ∀ name ∈ inst.symbols, IsSymbol letters name) :
    inst = .blank ∨ inst = .code ∨ (∃ name, inst = .label name ∧ IsSymbol letters name) ∨
      ∃ mnemonic operands, Columns inst mnemonic operands := by
  cases inst with
  | blank => exact .inl rfl
  | code => exact .inr (.inl rfl)
  | label name => exact .inr (.inr (.inl ⟨name, rfl, h name (.head _)⟩))
  | importName name =>
    refine .inr (.inr (.inr ⟨".import", [name], rfl, plain_of_all (by decide) (by decide),
      List.cons_ne_nil _ _, List.forall_mem_singleton.2 (h name (.head _)).plain, ?_⟩))
    simp [ofColumns?]
  | exportName name =>
    refine .inr (.inr (.inr ⟨".export", [name], rfl, plain_of_all (by decide) (by decide),
      List.cons_ne_nil _ _, List.forall_mem_singleton.2 (h name (.head _)).plain, ?_⟩))
    simp [ofColumns?]
  | align bytes =>
    refine .inr (.inr (.inr ⟨".align", [toString bytes], rfl, plain_of_all (by decide) (by decide),
      List.cons_ne_nil _ _, List.forall_mem_singleton.2 (plain_repr bytes), ?_⟩))
    show (natural? (toString bytes).toList).bind _ = _
    rw [natural?_repr]
    rfl
  | alu op target source operand =>
    refine .inr (.inr (.inr ⟨op.mnemonic, [target.text, source.text, operand.text], rfl,
      AluOp.plain_mnemonic op, List.cons_ne_nil _ _, ?_, ?_⟩))
    · simp [target.plain_text, source.plain_text, operand.plain_text]
    · cases op <;>
        simp [ofColumns?, AluOp.mnemonic, Reg.read?_text, Operand.read?_text, AluOp.read?]
  | load target base offset =>
    refine .inr (.inr (.inr ⟨"ldw", [target.text, base.text, offset.text], rfl,
      plain_of_all (by decide) (by decide), List.cons_ne_nil _ _, ?_, ?_⟩))
    · simp [target.plain_text, base.plain_text, offset.plain_text]
    · simp [ofColumns?, Reg.read?_text, Word.read?_text]
  | store source base offset =>
    refine .inr (.inr (.inr ⟨"stw", [source.text, base.text, offset.text], rfl,
      plain_of_all (by decide) (by decide), List.cons_ne_nil _ _, ?_, ?_⟩))
    · simp [source.plain_text, base.plain_text, offset.plain_text]
    · simp [ofColumns?, Reg.read?_text, Word.read?_text]
  | branch cond left right target =>
    refine .inr (.inr (.inr ⟨cond.mnemonic, [left.text, right.text, target], rfl,
      Cond.plain_mnemonic cond, List.cons_ne_nil _ _, ?_, ?_⟩))
    · simp [left.plain_text, right.plain_text, (h target (.head _)).plain]
    · cases cond <;> simp [ofColumns?, Cond.mnemonic, Reg.read?_text, AluOp.read?, AluOp.mnemonic,
        Cond.read?]
  | jump target =>
    refine .inr (.inr (.inr ⟨"j", [target], rfl, plain_of_all (by decide) (by decide),
      List.cons_ne_nil _ _, List.forall_mem_singleton.2 (h target (.head _)).plain, ?_⟩))
    simp [ofColumns?]
  | jumpRegister r =>
    refine .inr (.inr (.inr ⟨"jr", [r.text], rfl, plain_of_all (by decide) (by decide),
      List.cons_ne_nil _ _, List.forall_mem_singleton.2 r.plain_text, ?_⟩))
    simp [ofColumns?, Reg.read?_text]
  | call target =>
    refine .inr (.inr (.inr ⟨"jal", [target], rfl, plain_of_all (by decide) (by decide),
      List.cons_ne_nil _ _, List.forall_mem_singleton.2 (h target (.head _)).plain, ?_⟩))
    simp [ofColumns?]

theorem toList_columns (mnemonic : String) (operands : List String) :
    (columns mnemonic operands).toList =
      ['\t'].intercalate
        [[], mnemonic.toList, [','].intercalate (operands.map String.toList)] := by
  simp [columns, List.intercalate_cons_cons, String.toList_intercalate]

theorem not_mem_joinedOperands {operands : List String} (h : ∀ o ∈ operands, Plain o.toList)
    {x : Char} (hx : x ∈ separators) (hcomma : x ≠ ',') :
    x ∉ [','].intercalate (operands.map String.toList) := fun hmem => by
  rcases mem_intercalate hmem with hx' | ⟨l, hl, hxl⟩
  · exact hcomma hx'
  · obtain ⟨o, ho, rfl⟩ := List.mem_map.1 hl
    exact (h o ho).2 x hxl hx

/-- Joined columns and operands are divided again. -/
theorem Columns.read?_text {inst : Inst} {mnemonic : String} {operands : List String}
    (h : Columns inst mnemonic operands) : read? inst.text.toList = some inst := by
  have hcolumns : inst.text.toList.splitOn '\t' =
      [[], mnemonic.toList, [','].intercalate (operands.map String.toList)] := by
    rw [h.text_eq, toList_columns]
    refine List.splitOn_intercalate '\t' ?_ (List.cons_ne_nil _ _)
    simp only [List.forall_mem_cons]
    exact ⟨List.not_mem_nil, fun ht => h.plain_mnemonic.2 _ ht (by decide),
      not_mem_joinedOperands h.plain_operands (by decide) (by decide), by simp⟩
  have hoperands : ([','].intercalate (operands.map String.toList)).splitOn ',' =
      operands.map String.toList := by
    refine List.splitOn_intercalate ',' ?_ (fun hnil => h.ne_nil (List.map_eq_nil_iff.1 hnil))
    exact List.forall_mem_map.2 fun o ho hc => (h.plain_operands o ho).2 _ hc (by decide)
  rw [read?, hcolumns]
  show ofColumns? (String.ofList mnemonic.toList) _ = _
  rw [hoperands, String.ofList_toList, h.read_eq]

theorem read?_text {inst : Inst} (h : ∀ name ∈ inst.symbols, IsSymbol letters name) :
    read? inst.text.toList = some inst := by
  obtain rfl | rfl | ⟨name, rfl, hname⟩ | ⟨mnemonic, operands, hcolumns⟩ := text_cases h
  · decide
  · decide
  · have htext : (label name).text.toList = name.toList ++ [':'] := String.toList_append
    have hmargin : (name.toList ++ [':']).splitOn '\t' = [name.toList ++ [':']] := by
      refine List.splitOn_eq_singleton fun ht => ?_
      rcases List.mem_append.1 ht with ht | ht
      · exact hname.plain.2 _ ht (by decide)
      · exact absurd ht (by decide)
    obtain ⟨c, cs, hcs⟩ := List.exists_cons_of_ne_nil hname.plain.1
    rw [htext, read?, hmargin, hcs]
    show (if (c :: cs ++ [':']).getLast? = some ':' then _ else none) = _
    rw [if_pos List.getLast?_concat]
    show some (label (String.ofList (c :: cs ++ [':']).dropLast)) = _
    rw [List.dropLast_concat, ← hcs, String.ofList_toList]
  · exact hcolumns.read?_text

theorem Columns.ne_nil_joined {inst : Inst} {mnemonic : String} {operands : List String}
    (h : Columns inst mnemonic operands) : [','].intercalate (operands.map String.toList) ≠ [] := by
  obtain ⟨o, os, rfl⟩ := List.exists_cons_of_ne_nil h.ne_nil
  have ho := (h.plain_operands o (.head _)).1
  cases os with
  | nil =>
    rw [List.map_singleton, List.intercalate_singleton]
    exact ho
  | cons o' os =>
    rw [List.map_cons, List.map_cons, List.intercalate_cons_cons]
    exact List.append_ne_nil_of_left_ne_nil (List.append_ne_nil_of_left_ne_nil ho _) _

theorem mem_text {inst : Inst} (h : ∀ name ∈ inst.symbols, IsSymbol letters name) {c : Char}
    (hc : c ∈ inst.text.toList) : c ∉ separators ∨ c = '\t' ∨ c = ',' ∨ c = ':' := by
  obtain rfl | rfl | ⟨name, rfl, hname⟩ | ⟨mnemonic, operands, hcolumns⟩ := text_cases h
  · cases hc
  · have hcode : Inst.code.text.toList.all
        (fun c => decide (c ∉ separators ∨ c = '\t' ∨ c = ',' ∨ c = ':')) = true := by decide
    exact of_decide_eq_true (List.all_eq_true.1 hcode c hc)
  · rcases List.mem_append.1 (String.toList_append ▸ hc) with hc | hc
    · exact .inl (hname.plain.2 c hc)
    · exact .inr (.inr (.inr (List.mem_singleton.1 hc)))
  · rw [hcolumns.text_eq, toList_columns] at hc
    rcases mem_intercalate hc with rfl | ⟨l, hl, hc⟩
    · exact .inr (.inl rfl)
    · simp only [List.mem_cons, List.not_mem_nil, or_false] at hl
      obtain rfl | rfl | rfl := hl
      · cases hc
      · exact .inl (hcolumns.plain_mnemonic.2 c hc)
      · rcases mem_intercalate hc with rfl | ⟨l, hl, hc⟩
        · exact .inr (.inr (.inl rfl))
        · obtain ⟨o, ho, rfl⟩ := List.mem_map.1 hl
          exact .inl (hcolumns.plain_operands o ho |>.2 c hc)

/-- Behind the text of an instruction no tab is left to drop. -/
theorem rdropWhile_text {inst : Inst} (h : ∀ name ∈ inst.symbols, IsSymbol letters name) :
    inst.text.toList.rdropWhile (· = '\t') = inst.text.toList := by
  obtain rfl | rfl | ⟨name, rfl, hname⟩ | ⟨mnemonic, operands, hcolumns⟩ := text_cases h
  · rfl
  · decide
  · have htext : (label name).text.toList = name.toList ++ [':'] := String.toList_append
    rw [htext]
    exact List.rdropWhile_concat_neg _ _ _ (by decide)
  · have hjoined := (List.dropLast_append_getLast hcolumns.ne_nil_joined).symm
    have hlast : ([','].intercalate (operands.map String.toList)).getLast hcolumns.ne_nil_joined
        ≠ '\t' := fun ht =>
      not_mem_joinedOperands hcolumns.plain_operands (x := '\t') (by decide) (by decide)
        (ht ▸ List.getLast_mem _)
    rw [hcolumns.text_eq, toList_columns, List.intercalate_cons_cons, List.intercalate_cons_cons,
      List.intercalate_singleton, hjoined, ← List.append_assoc, ← List.append_assoc]
    exact List.rdropWhile_concat_neg _ _ _ (by simpa using hlast)

end Inst

/-! ## Lines -/

namespace Line

variable {letters : Char → Prop} {l : Line}

theorem toList_text (l : Line) :
    l.text.toList = l.inst.text.toList ++ match l.comment with
      | none => []
      | some comment =>
        (if l.inst.isInstruction then ['\t', '\t'] else ['\t']) ++
          ';' :: ' ' :: comment.toList := by
  unfold text
  cases l.comment with
  | none => simp
  | some comment => cases l.inst.isInstruction <;> simp

/-- Tabs in front of a comment are dropped with it. -/
theorem rdropWhile_append_of_pos {p : Char → Bool} {xs ys : List Char}
    (h : ∀ c ∈ ys, p c = true) : (xs ++ ys).rdropWhile p = xs.rdropWhile p := by
  unfold List.rdropWhile
  rw [List.reverse_append,
    List.dropWhile_append_of_pos fun c hc => h c (List.mem_reverse.1 hc)]

theorem read?_text (h : l.Readable letters) : read? l.text.toList = some l := by
  have hinst : ∀ c ∈ l.inst.text.toList, decide (c ≠ ';') = true := fun c hc => by
    rcases Inst.mem_text h.symbols hc with hc | rfl | rfl | rfl
    · exact decide_eq_true fun heq => hc (heq ▸ by decide)
    all_goals decide
  rw [toList_text]
  obtain ⟨inst, comment⟩ := l
  cases comment with
  | none =>
    rw [List.append_nil, read?, List.dropWhile_eq_nil_iff.2 hinst]
    show (Inst.read? inst.text.toList).map _ = _
    rw [Inst.read?_text h.symbols]
    rfl
  | some comment =>
    obtain ⟨tabs, htabs, heq⟩ : ∃ tabs : List Char, (∀ c ∈ tabs, c = '\t') ∧
        (if inst.isInstruction then ['\t', '\t'] else ['\t']) = tabs :=
      ⟨_, by split <;> simp, rfl⟩
    have hfront : ∀ c ∈ inst.text.toList ++ tabs, decide (c ≠ ';') = true := fun c hc => by
      rcases List.mem_append.1 hc with hc | hc
      · exact hinst c hc
      · rw [htabs c hc]
        decide
    have hdrop : (inst.text.toList ++ tabs ++ ';' :: ' ' :: comment.toList).dropWhile
        (decide <| · ≠ ';') = ';' :: ' ' :: comment.toList :=
      List.dropWhile_append_of_pos hfront
    have htake : (inst.text.toList ++ tabs ++ ';' :: ' ' :: comment.toList).takeWhile
        (decide <| · ≠ ';') = inst.text.toList ++ tabs :=
      (List.takeWhile_append_of_pos hfront).trans (List.append_nil _)
    show read? (inst.text.toList ++ ((if inst.isInstruction then _ else _) ++ _)) = _
    rw [heq, ← List.append_assoc, read?, hdrop]
    show (Inst.read? (List.rdropWhile (· = '\t') (List.takeWhile _ _))).map _ = _
    rw [htake, rdropWhile_append_of_pos fun c hc => decide_eq_true (htabs c hc),
      Inst.rdropWhile_text h.symbols, Inst.read?_text h.symbols, String.ofList_toList]
    rfl

/-- The text of a line is one line. -/
theorem newline_not_mem_text (h : l.Readable letters) : '\n' ∉ l.text.toList := by
  intro hmem
  rw [toList_text] at hmem
  rcases List.mem_append.1 hmem with hmem | hmem
  · rcases Inst.mem_text h.symbols hmem with hn | hn | hn | hn
    · exact hn (by decide)
    all_goals exact absurd hn (by decide)
  · cases hc : l.comment with
    | none =>
      rw [hc] at hmem
      cases hmem
    | some comment =>
      rw [hc] at hmem
      rcases List.mem_append.1 hmem with hmem | hmem
      · split at hmem <;> exact absurd hmem (by decide)
      · have hcomment := h.comment comment hc
        simp [hcomment] at hmem

end Line

/-! ## Modules -/

theorem toList_unlines (texts : List String) :
    (unlines texts).toList = ['\n'].intercalate (texts.map String.toList ++ [[]]) := by
  induction texts with
  | nil => rfl
  | cons text texts ih =>
    have hsplit : unlines (text :: texts) = text ++ "\n" ++ unlines texts := by
      simp [unlines, String.join_cons]
    have hne : texts.map String.toList ++ [[]] ≠ [] :=
      List.append_ne_nil_of_right_ne_nil _ (List.cons_ne_nil _ _)
    rw [hsplit, List.map_cons, List.cons_append, List.intercalate_cons_of_ne_nil hne, ← ih]
    simp

theorem mapM_read?_text {letters : Char → Prop} {lines : List Line}
    (h : ∀ l ∈ lines, l.Readable letters) :
    (lines.map (String.toList ∘ Line.text)).mapM Line.read? = some lines := by
  induction lines with
  | nil => rfl
  | cons l lines ih =>
    rw [List.forall_mem_cons] at h
    rw [List.map_cons, List.mapM_cons, Function.comp_apply, Line.read?_text h.1, ih h.2]
    rfl

/-- The reader gets back what was written. -/
theorem assembly?_assemblyText {letters : Char → Prop} {lines : List Line}
    (h : ∀ l ∈ lines, l.Readable letters) : assembly? (assemblyText lines) = some lines := by
  have hpieces : (assemblyText lines).toList.splitOn '\n' =
      lines.map (String.toList ∘ Line.text) ++ [[]] := by
    rw [assemblyText, toList_unlines, List.map_map]
    refine List.splitOn_intercalate '\n' ?_
      (List.append_ne_nil_of_right_ne_nil _ (List.cons_ne_nil _ _))
    intro cs hcs
    rcases List.mem_append.1 hcs with hcs | hcs
    · obtain ⟨l, hl, rfl⟩ := List.mem_map.1 hcs
      exact Line.newline_not_mem_text (h l hl)
    · rw [List.mem_singleton.1 hcs]
      exact List.not_mem_nil
  rw [assembly?, hpieces, if_pos List.getLast?_concat, List.dropLast_concat, mapM_read?_text h]

/-- Different lists of lines have different texts. -/
theorem assemblyText_injective {letters : Char → Prop} {lines lines' : List Line}
    (h : ∀ l ∈ lines, l.Readable letters) (h' : ∀ l ∈ lines', l.Readable letters)
    (heq : assemblyText lines = assemblyText lines') : lines = lines' :=
  Option.some.inj <|
    (assembly?_assemblyText h).symm.trans
      ((congrArg assembly? heq).trans (assembly?_assemblyText h'))

end Spl
