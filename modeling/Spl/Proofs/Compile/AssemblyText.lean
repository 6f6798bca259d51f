import Spl.Proofs.Assembly.Reader
import Spl.Proofs.Code.BodyLines
import Spl.Proofs.Compile.Symbols
import Spl.Proofs.Typing.LocalTotals

/-!
# The text of modules

The symbols of a module are the names of procedures, of the library and of the error routine, and
the local labels. Its comments are fixed, but for the numbers of arguments. So the text of a module
is read back if the names of its procedures are symbols.

* `exportsIn`: the names that lines export.
* `Accepted.readable`: the lines of a module are readable.
* `assemblyText_determines`: the text of lines determines the lines, those of compiled programs
  among them.
-/

namespace Spl

open SymbolTable

variable {letters : Char → Prop} {t : SymbolTable} {p : Program} {o : Options} {lines : List Line}

/-! ## Exports -/

/-- The name that an instruction exports. -/
def Inst.export? : Inst → Option String
  | .exportName name => some name
  | .importName _ | .code | .align _ | .label _ | .blank | .alu .. | .load .. | .store ..
  | .branch .. | .jump _ | .jumpRegister _ | .call _ => none

/-- The names that lines export. -/
def exportsIn (lines : List Line) : List String := lines.filterMap (·.inst.export?)

theorem exportsIn_append {c d : List Line} : exportsIn (c ++ d) = exportsIn c ++ exportsIn d :=
  List.filterMap_append

/-- The symbols in lines are defined, imported, exported, or targets. -/
theorem mem_of_mem_symbols {l : Line} (hl : l ∈ lines) {name : String} (h : name ∈ l.inst.symbols) :
    name ∈ labelsIn lines ∨ name ∈ importsIn lines ∨ name ∈ targetsIn lines ∨
      name ∈ exportsIn lines := by
  have hmem : ∀ f : Inst → Option String, f l.inst = some name →
      name ∈ lines.filterMap fun l => f l.inst := fun f hf => List.mem_filterMap.2 ⟨l, hl, hf⟩
  obtain ⟨inst, comment⟩ := l
  cases inst with
  | importName n =>
    obtain rfl := List.mem_singleton.1 h
    exact .inr (.inl (hmem Inst.import? rfl))
  | exportName n =>
    obtain rfl := List.mem_singleton.1 h
    exact .inr (.inr (.inr (hmem Inst.export? rfl)))
  | label n =>
    obtain rfl := List.mem_singleton.1 h
    exact .inl (hmem Inst.label? rfl)
  | branch _ _ _ n | jump n | call n =>
    obtain rfl := List.mem_singleton.1 h
    exact .inr (.inr (.inl (hmem Inst.target? rfl)))
  | _ => cases h

/-- Bodies export nothing. -/
theorem BodyLines.exportsIn_eq_nil {T C : String → Prop} {code : List Line}
    (h : BodyLines T C code) : exportsIn code = [] := by
  refine List.filterMap_eq_nil_iff.2 fun l hl => ?_
  have hinst := h l hl
  cases hi : l.inst with
  | exportName name =>
    rw [hi] at hinst
    exact hinst.elim
  | _ => rfl

/-! ## Comments -/

/-- The comments of lines stay on their lines. -/
def CommentsStay (lines : List Line) : Prop :=
  ∀ l ∈ lines, ∀ c, l.comment = some c → '\n' ∉ c.toList

namespace CommentsStay

variable {c d : List Line} {inst : Inst} {comment : String}

theorem nil : CommentsStay [] := fun _ hl => nomatch hl

theorem cons_plain (h : CommentsStay c) : CommentsStay (plain inst :: c) :=
  List.forall_mem_cons.2 ⟨fun _ hc => (nomatch hc), h⟩

theorem cons_noted (h : CommentsStay c) (hcomment : '\n' ∉ comment.toList := by decide) :
    CommentsStay (noted inst comment :: c) :=
  List.forall_mem_cons.2 ⟨fun _ hc => Option.some.inj hc ▸ hcomment, h⟩

theorem append (h : CommentsStay c) (h' : CommentsStay d) : CommentsStay (c ++ d) :=
  List.forall_mem_append.2 ⟨h, h'⟩

end CommentsStay

theorem BodyCode.commentsStay {T C : String → Prop} {code : List Line} (h : BodyCode T C code) :
    CommentsStay code := fun l hl c hc => by
  cases h l hl with
  | plain _ => cases hc
  | @argument _ _ _ index =>
    cases hc
    rw [String.toList_append, List.mem_append]
    rintro (hmem | hmem)
    · exact absurd hmem (by decide)
    · exact (plain_repr index).2 _ hmem (by decide)

theorem EntryCode.commentsStay {layout : FrameLayout} {size : Word} {code : List Line}
    (h : EntryCode layout size code) : CommentsStay code ∧ exportsIn code = [] := by
  cases h with
  | leaf _ => exact ⟨.cons_noted .nil, rfl⟩
  | frame _ _ => exact ⟨.cons_noted (.cons_noted (.cons_noted (.cons_noted .nil))), rfl⟩

theorem ExitCode.commentsStay {layout : FrameLayout} {size : Word} {code : List Line}
    (h : ExitCode layout size code) : CommentsStay code ∧ exportsIn code = [] := by
  cases h with
  | leaf _ => exact ⟨.cons_noted (.cons_noted .nil), rfl⟩
  | frame _ _ => exact ⟨.cons_noted (.cons_noted (.cons_noted (.cons_noted .nil))), rfl⟩

theorem ProcDecl.Code.commentsStay {s : RegisterStack} {n : Nat} {d : ProcDecl} {code : List Line}
    (h : d.Code t s n code) : CommentsStay code ∧ exportsIn code = [d.name] := by
  cases h with
  | @mk P size entry body exit _ _ hentry hbody hexit =>
    have hin := hbody.inBody (T := fun _ => True) (C := fun _ => True) (fun _ _ _ => trivial)
      fun _ _ => trivial
    have hlines := hbody.bodyLines (T := fun _ => True) (C := fun _ => True) (fun _ _ _ => trivial)
      fun _ _ => trivial
    obtain ⟨hc₁, he₁⟩ := hentry.commentsStay
    obtain ⟨hc₃, he₃⟩ := hexit.commentsStay
    refine ⟨.cons_plain (.cons_plain (.cons_plain ((hc₁.append hin.commentsStay).append hc₃))), ?_⟩
    show d.name :: exportsIn (entry ++ body ++ exit) = _
    rw [exportsIn_append, exportsIn_append, he₁, hlines.exportsIn_eq_nil, he₃]
    rfl

/-- The comments of procedures stay on their lines, and their names are exported. -/
theorem ProcDecl.CodeOf.commentsStay {s : RegisterStack} {n : Nat} {ds : List ProcDecl}
    {code : List Line} (h : ProcDecl.CodeOf t s n ds code) :
    CommentsStay code ∧ exportsIn code = ds.map (·.name) := by
  induction h with
  | nil => exact ⟨.nil, rfl⟩
  | cons hd _ ih =>
    obtain ⟨hc, he⟩ := hd.commentsStay
    refine ⟨hc.append ih.1, ?_⟩
    rw [exportsIn_append, he, ih.2]
    rfl

/-! ## Symbols -/

theorem isSymbol_of_isAlphanum {name : String} (hne : name ≠ "")
    (h : name.toList.all (fun c => c.isAlphanum || c == '_') = true) : IsSymbol letters name := by
  refine ⟨hne, fun c hc => ?_⟩
  have hc' := List.all_eq_true.1 h c hc
  rw [Bool.or_eq_true, beq_iff_eq] at hc'
  exact hc'.elim .inl fun h => .inr (.inl h)

theorem isSymbol_indexErrorRoutine : IsSymbol letters indexErrorRoutine :=
  isSymbol_of_isAlphanum (by decide) (by decide)

theorem Builtin.isSymbol_name {b : Builtin} (hb : b ∈ builtins) : IsSymbol letters b.name := by
  have h : ∀ b ∈ builtins, b.name ≠ "" ∧
      b.name.toList.all (fun c => c.isAlphanum || c == '_') = true := by decide
  exact isSymbol_of_isAlphanum (h b hb).1 (h b hb).2

theorem isSymbol_labelName (n : Nat) : IsSymbol letters (labelName n) := by
  have htext : (labelName n).toList = 'L' :: (toString n).toList := by
    rw [labelName, String.toList_append]
    rfl
  refine ⟨fun hnil => ?_, fun c hc => .inl ?_⟩
  · rw [hnil] at htext
    cases htext
  · rw [htext] at hc
    rcases List.mem_cons.1 hc with rfl | hc
    · decide
    · rw [Char.isAlphanum, isDigit_of_mem_toString hc, Bool.or_true]

/-- The names of the library and of the error routine, which every module imports. -/
theorem isSymbol_of_imported {name : String}
    (h : name ∈ builtins.map Builtin.name ++ [indexErrorRoutine]) : IsSymbol letters name := by
  rcases List.mem_append.1 h with h | h
  · obtain ⟨b, hb, rfl⟩ := List.mem_map.1 h
    exact Builtin.isSymbol_name hb
  · exact List.mem_singleton.1 h ▸ isSymbol_indexErrorRoutine

/-- What the code of an accepted program goes to is a symbol. -/
theorem Program.Target.isSymbol (hA : Accepted t p)
    (hnames : ∀ d ∈ p.procedures, IsSymbol letters d.name) {name : String}
    (h : p.Target t name) : IsSymbol letters name := by
  rcases h with rfl | ⟨Q, hQ⟩ | h
  · exact isSymbol_indexErrorRoutine
  · rcases hA.holds.only name _ (procedure?_eq_some_iff.1 hQ) with
      ⟨ty, hty, -⟩ | ⟨-, ⟨b, hb, rfl⟩ | ⟨d', hd', rfl⟩⟩
    · cases hty
    · exact Builtin.isSymbol_name hb
    · obtain ⟨d, hd, rfl⟩ := List.mem_map.1 hd'
      exact hnames d hd
  · obtain ⟨n, -, -, rfl⟩ := mem_drawn.1 h
    exact isSymbol_labelName n

/-! ## Modules -/

theorem commentsStay_prologueLines : CommentsStay prologueLines := fun l hl c hc => by
  have h : ∀ l ∈ prologueLines, l.comment = none := by decide
  rw [h l hl] at hc
  cases hc

/-- The lines of a module are readable if the names of its procedures are symbols. -/
theorem Accepted.readable {code : List Line} (hA : Accepted t p)
    (hnames : ∀ d ∈ p.procedures, IsSymbol letters d.name)
    (h : ProcDecl.CodeOf t {} 0 p.procedures code) :
    ∀ l ∈ prologueLines ++ code, l.Readable letters := by
  obtain ⟨hlabels, himports, htargets⟩ := h.symbols hA
  obtain ⟨hcomments, hexports⟩ := h.commentsStay
  have hproc : ∀ name ∈ p.procedures.map (·.name), IsSymbol letters name := fun name hname => by
    obtain ⟨d, hd, rfl⟩ := List.mem_map.1 hname
    exact hnames d hd
  refine fun l hl => ⟨fun name hname => ?_, (commentsStay_prologueLines.append hcomments) l hl⟩
  rcases mem_of_mem_symbols hl hname with h | h | h | h
  · rcases List.mem_append.1 (hlabels.mem_iff.1 h) with h | h
    · exact hproc name h
    · obtain ⟨n, -, -, rfl⟩ := mem_drawn.1 h
      exact isSymbol_labelName n
  · exact isSymbol_of_imported (himports ▸ h)
  · exact (htargets name h).isSymbol hA hnames
  · rw [exportsIn_append, hexports] at h
    exact hproc name h

/-- The lines of a compiled program are readable if the names of its procedures are symbols. -/
theorem compile_readable (hnames : ∀ d ∈ p.procedures, IsSymbol letters d.name)
    (h : (compile o p).answer = .ok lines) : ∀ l ∈ lines, l.Readable letters := by
  obtain ⟨t, t', ht, hr⟩ := compile_eq_ok_iff.1 h
  obtain ⟨hal, code, hcode, rfl⟩ :=
    (allocateAndGenerate_ends (A := True) (Accepted.of_ok ht) (.inr trivial)).ok hr
  refine hal.accepted.readable (fun d' hd' => ?_) hcode
  obtain ⟨d, hd, heq, -⟩ := (buildAndCheck_localsChecked o p).of_ok ht d' hd'
  rw [heq]
  exact hnames d hd

/-- The text of readable lines determines the lines: a reader gets them back, and different lists
have different texts. A program whose procedures have symbols as names compiles to such lines. -/
theorem assemblyText_determines (letters : Char → Prop) :
    (∀ lines : List Line, (∀ l ∈ lines, l.Readable letters) →
      assembly? (assemblyText lines) = some lines) ∧
    (∀ lines lines' : List Line, (∀ l ∈ lines, l.Readable letters) →
      (∀ l ∈ lines', l.Readable letters) → assemblyText lines = assemblyText lines' →
        lines = lines') ∧
    ∀ (o : Options) (p : Program) (lines : List Line),
      (∀ d ∈ p.procedures, IsSymbol letters d.name) → (compile o p).answer = .ok lines →
        ∀ l ∈ lines, l.Readable letters :=
  ⟨fun _ => assembly?_assemblyText, fun _ _ => assemblyText_injective,
    fun _ _ _ => compile_readable⟩

/-- The module of a program is read back from its text. -/
theorem assemblyText_determines_squares : ∃ lines, (compile {} squares).answer = .ok lines ∧
    (∀ l ∈ lines, l.Readable fun _ => False) ∧ assembly? (assemblyText lines) = some lines := by
  have hsome := squares_compiles.2.2.1
  cases hc : (compile {} squares).answer with
  | error e =>
    rw [hc] at hsome
    cases hsome
  | ok lines =>
    obtain ⟨hread, -, hcompile⟩ := assemblyText_determines fun _ => False
    have hnames : ∀ d ∈ squares.procedures, d.name ≠ "" ∧
        d.name.toList.all (fun c => c.isAlphanum || c == '_') = true := by decide
    have hlines := hcompile {} squares lines
      (fun d hd => isSymbol_of_isAlphanum (hnames d hd).1 (hnames d hd).2) hc
    exact ⟨lines, rfl, hlines, hread lines hlines⟩

end Spl
