import Spl.Proofs.Compile.Linkage
import Spl.Proofs.Frame.Rows

/-!
# Dumps of frames

The dump of a program consists of one text for each procedure, and the diagram in it tells the
truth about the block of the procedure in the module.

* `frameDump_eq_ok`: the texts of a dump.
* `ProcDecl.DumpedAs`: a text that tells the truth about a module.
* `frameDump_true`: all texts of a dump do.
-/

namespace Spl

open SymbolTable

variable {t : SymbolTable} {p : Program} {d : ProcDecl} {P : Procedure}

/-- A computation that gives something for each element of a list. -/
theorem forall₂_of_filterMapM_eq_ok {ε α β : Type} {f : α → Except ε (Option β)}
    {R : α → β → Prop} {xs : List α} {ys : List β}
    (hf : ∀ x ∈ xs, ∀ r, f x = .ok r → ∃ y, r = some y ∧ R x y) (h : xs.filterMapM f = .ok ys) :
    List.Forall₂ R xs ys := by
  induction xs generalizing ys with
  | nil =>
    cases h
    exact .nil
  | cons x xs ih =>
    rw [List.forall_mem_cons] at hf
    rw [List.filterMapM_cons] at h
    obtain ⟨r, hr, h⟩ := bind_eq_ok_iff.1 h
    obtain ⟨y, rfl, hy⟩ := hf.1 r hr
    obtain ⟨ys', hys, h⟩ := bind_eq_ok_iff.1 h
    cases h
    exact .cons hy (ih hf.2 hys)

/-- A dump consists of the texts of the procedures. -/
theorem frameDump_eq_ok {text : String}
    (hall : ∀ d ∈ p.procedures, ∃ P, t.procedure? d.name = some P) (h : frameDump t p = .ok text) :
    ∃ texts, text = String.join texts ∧ List.Forall₂ (fun d s => ∃ P,
      t.procedure? d.name = some P ∧ procedureFrameText t d P = .ok s) p.procedures texts := by
  obtain ⟨texts, htexts, h⟩ := bind_eq_ok_iff.1 h
  cases h
  refine ⟨texts, rfl, forall₂_of_filterMapM_eq_ok (fun d hd r hr => ?_) htexts⟩
  obtain ⟨P, hP⟩ := hall d hd
  rw [hP] at hr
  obtain ⟨s, hs, hr⟩ := bind_eq_ok_iff.1 hr
  cases hr
  exact ⟨s, rfl, P, hP, hs⟩

/-- The lines in front of the diagram of a procedure: its name and the sizes of its areas. -/
def ProcDecl.dumpHead (d : ProcDecl) (isLeaf : Bool) (size : Int) : List String :=
  [ "Variable allocation for procedure '" ++ d.name ++ "':",
    "  - size of argument area = " ++ toString (4 * d.parameters.length),
    "  - size of localvar area = " ++ toString d.localBytes,
    "  - size of outgoing area = " ++ toString (4 * d.longestCall),
    "  - frame size = " ++ toString size,
    "",
    if isLeaf then "  Stack layout (leaf optimized):" else "  Stack layout:" ]

/-- A text that tells the truth about a module, letter by letter: the sizes of the areas of the
procedure, and the rows of its diagram as they are printed. No row says that something is unknown,
unless the name of a variable does. The procedure has its block in the module, and the rows are true
of the code in that block. -/
def ProcDecl.DumpedAs (t : SymbolTable) (lines : List Line) (d : ProcDecl) (s : String) : Prop :=
  ∃ P size rows printed, t.procedure? d.name = some P ∧ P.layout.frameSize = .ok (some size) ∧
    s = String.join ((d.dumpHead P.layout.isLeaf size.toInt ++ printed.map ("    " ++ ·) ++
      [""]).map (· ++ "\n")) ∧
    List.Forall₂ Row.Prints rows printed ∧
    (∀ line ∈ printed, ∀ w ∈ ["INCONSISTENT", "NULL", "UNKNOWN SIZE"], w.toList <:+: line.toList →
      ∃ name ∈ d.parameters.map (·.name) ++ d.locals.map (·.name), w.toList <:+: name.toList) ∧
    Nonempty (Block t d lines) ∧
    ∀ B : Block t d lines, B.size = size ∧ d.Drawn t P B.size B.entry B.body rows

theorem optionalText_natCast {n : Nat} (hn : n ≤ Word.maxNat) :
    optionalText (some (Int32.ofNat n)) = toString n := by
  show toString (Int32.ofNat n).toInt = _
  rw [Word.toInt_ofNat hn]
  rfl

/-- The text of a placed procedure consists of the sizes of its areas and its diagram. -/
theorem Placed.procedureFrameText_eq_ok {leaves : Bool} {size : Word} {s : String}
    (hP : t.Declares d P) (hp : Placed leaves t d P)
    (hs : P.layout.frameSize = .ok (some size)) (h : procedureFrameText t d P = .ok s) :
    ∃ rows, diagram t d P = .ok rows ∧ s = String.join ((d.dumpHead P.layout.isLeaf size.toInt ++
      (rows.map Row.text).map ("    " ++ ·) ++ [""]).map (· ++ "\n")) := by
  obtain ⟨rows, hrows, h⟩ := bind_eq_ok_iff.1 h
  obtain ⟨_, hsize, h⟩ := bind_eq_ok_iff.1 h
  cases hs.symm.trans hsize
  cases h
  refine ⟨rows, hrows, ?_⟩
  have hroom := hP.room
  have hargument : P.layout.argumentArea = some (Int32.ofNat (4 * d.parameters.length)) := by
    rw [hp.layout]
    rfl
  have hlocal : P.layout.localArea = some (Int32.ofNat d.localBytes) := by
    rw [hp.layout]
    rfl
  have houtgoing : P.layout.outgoingArea = some (Int32.ofNat (4 * d.longestCall)) := by
    rw [hp.layout]
    rfl
  rw [hargument, hlocal, houtgoing, optionalText_natCast hp.argumentRoom,
    optionalText_natCast (by omega : d.localBytes ≤ Word.maxNat),
    optionalText_natCast hp.outgoingRoom, List.map_map]
  rfl

/-- A variable that a diagram shows is one of the procedure. -/
theorem ProcDecl.Drawn.mem_names {size : Word} {entry body : List Line} {rows : List Row}
    {row : Row} {c : Cell} {name : String} (h : d.Drawn t P size entry body rows)
    (hrow : row ∈ rows) (hc : row.content? = some c) (hname : c.variable? = some name) :
    name ∈ d.parameters.map (·.name) ++ d.locals.map (·.name) := by
  obtain ⟨area, words, -, -, hperm⟩ := h.contents
  have hmem := hperm.mem_iff.1 (List.mem_filterMap.2 ⟨row, hrow, hc⟩)
  rw [List.mem_append, List.mem_append] at hmem
  rw [List.mem_append]
  rcases hmem with (hmem | hmem) | hmem
  · obtain ⟨b, hb, rfl⟩ := List.mem_map.1 hmem
    cases hname
    exact .inl (List.mem_map_of_mem hb)
  · obtain ⟨b, hb, rfl⟩ := List.mem_map.1 hmem
    cases hname
    exact .inr (List.mem_map_of_mem hb)
  · rw [Cell.variable?_eq_none_of_mem_linkageCells hmem] at hname
    cases hname

/-- Of a program that the first two phases accept and whose frames have been allocated, with leaf
frames or without, the dump of the frames tells the truth about the module, if both come to an
end. -/
theorem frameDump_true (o : Options) (p : Program) (leaves : Bool) {t t' : SymbolTable}
    {text : String} {lines : List Line} (ht : (buildAndCheck o p).answer = .ok t)
    (hal : (allocate leaves (buildAndCheck o p).tree).run t = .ok () t')
    (hdump : frameDump t' (buildAndCheck o p).tree = .ok text)
    (hg : generate t' (buildAndCheck o p).tree = .ok lines) :
    ∃ texts, text = String.join texts ∧
      List.Forall₂ (ProcDecl.DumpedAs t' lines) (buildAndCheck o p).tree.procedures texts := by
  have halloc : Allocated leaves t' (buildAndCheck o p).tree :=
    (allocate_ends (A := True) (Accepted.of_ok ht) (.inr trivial)).ok hal
  have hgen := generate_meets (A := True) halloc (.inr trivial)
  rw [hg] at hgen
  obtain ⟨code, hcode, rfl⟩ := hgen
  obtain ⟨texts, rfl, htexts⟩ := frameDump_eq_ok
    (fun d hd => (halloc.placed d hd).imp fun P hP => hP.1.procedure) hdump
  refine ⟨texts, rfl, ((List.forall₂_and_left _ _).2 ⟨fun _ hd => hd, htexts⟩).imp ?_⟩
  intro d s ⟨hd, P', hP', hs⟩
  obtain ⟨P, hP, hp⟩ := halloc.placed d hd
  obtain rfl : P = P' := Option.some.inj (hP.procedure.symm.trans hP')
  have hsize (B : Block t' d (prologueLines ++ code)) :
      P.layout.frameSize = .ok (some B.size) := by
    obtain rfl : P = B.procedure := Option.some.inj (hP'.symm.trans B.procedure_eq)
    exact B.frameSize
  obtain ⟨B⟩ : Nonempty (Block t' d (prologueLines ++ code)) := hcode.exists_block hd
  obtain ⟨rows, hrows, rfl⟩ := hp.procedureFrameText_eq_ok hP (hsize B) hs
  have hdrawn (C : Block t' d (prologueLines ++ code)) :
      d.Drawn t' P C.size C.entry C.body rows := by
    obtain rfl : P = C.procedure := Option.some.inj (hP'.symm.trans C.procedure_eq)
    obtain ⟨s, n, hbody⟩ := C.bodyCode
    exact hp.drawn halloc.accepted.holds hP C.frameSize C.entryCode hbody hrows
  have hprints := (hdrawn B).shows.prints
  refine ⟨P, B.size, rows, _, hP', hsize B, rfl, hprints, fun line hline w hw hin => ?_, ⟨B⟩,
    fun C => ⟨Option.some.inj (Except.ok.inj ((hsize C).symm.trans (hsize B))), hdrawn C⟩⟩
  obtain ⟨row, hrow, hprint⟩ := exists_of_forall₂_right
    ((List.forall₂_and_left _ _).2 ⟨fun _ hr => hr, hprints⟩) hline
  obtain ⟨c, name, hc, hname, hin⟩ := hprint.variable_of_infix hw hin
  exact ⟨name, (hdrawn B).mem_names hrow hc hname, hin⟩

/-- A dump with a leaf frame and a frame with linkage words. -/
theorem frameDump_true_squares : ∃ t t' text lines,
    (buildAndCheck {} squares).answer = .ok t ∧
    (allocate true (buildAndCheck {} squares).tree).run t = .ok () t' ∧
    frameDump t' (buildAndCheck {} squares).tree = .ok text ∧
    generate t' (buildAndCheck {} squares).tree = .ok lines ∧
    ∃ texts, text = String.join texts ∧
      List.Forall₂ (ProcDecl.DumpedAs t' lines) (buildAndCheck {} squares).tree.procedures
        texts := by
  have h : allocates true {} squares = true := by decide +kernel
  obtain ⟨t, t', ht, hal⟩ := exists_of_allocates h
  have htable : framedTable { leaves := true } squares = t' := framedTable_eq ht hal
  have hdump : (frameDump (framedTable { leaves := true } squares)
      (buildAndCheck {} squares).tree).toOption.isSome = true := by decide +kernel
  have hcode : (generate (framedTable { leaves := true } squares)
      (buildAndCheck {} squares).tree).toOption.isSome = true := by decide +kernel
  rw [htable] at hdump hcode
  obtain ⟨text, htext⟩ := exists_ok_of_isSome hdump
  obtain ⟨lines, hlines⟩ := exists_ok_of_isSome hcode
  exact ⟨t, t', text, lines, ht, hal, htext, hlines,
    frameDump_true {} squares true ht hal htext hlines⟩

end Spl
