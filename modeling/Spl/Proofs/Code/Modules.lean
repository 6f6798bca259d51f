import Spl.Proofs.Code.Pending
import Spl.Proofs.Code.Programs
import Spl.Tree.Build

/-!
# One module after the other

One state of code generation may serve a sequence of programs, each of which ends with its code or
with an error. The lines of all of them stay, and no local label is placed twice in them.

* `Generator.Grows`: what has been appended and drawn between two states.
* `Blocks`: procedures, each with its own labels.
* `Finished`, `codeOfProcedures_finished`: how code generation for procedures ends.
* `Program.Emits`, `EmitAll`: one program, and a sequence of them.
* `modules_sound`: what holds of every program in a sequence.
-/

namespace Spl

variable {t : SymbolTable} {g g' g'' : Generator} {ds ds' : List ProcDecl}

/-! ## Growth -/

theorem count_drawn (n k i : Nat) :
    (drawn n k).count (labelName i) = if n ≤ i ∧ i < n + k then 1 else 0 := by
  split
  · next h => exact List.count_eq_one_of_mem (nodup_drawn n k) (mem_drawn.2 ⟨i, h.1, h.2, rfl⟩)
  · next h =>
    refine List.count_eq_zero_of_not_mem fun hi => h ?_
    obtain ⟨j, hj, hj', he⟩ := mem_drawn.1 hi
    rw [labelName_injective he] at hj hj'
    exact ⟨hj, hj'⟩

/-- Lines have been appended and labels drawn. A local label stands in the new lines once at most,
and only if it has been drawn in between. -/
def Generator.Grows (g g' : Generator) : Prop :=
  g.nextLabel ≤ g'.nextLabel ∧ ∃ code, g'.lines.toList = g.lines.toList ++ code ∧
    ∀ i, (labelsIn code).count (labelName i) ≤
      if g.nextLabel ≤ i ∧ i < g'.nextLabel then 1 else 0

namespace Generator.Grows

theorem refl (g : Generator) : g.Grows g :=
  ⟨Nat.le_refl _, [], (List.append_nil _).symm, fun _ => Nat.zero_le _⟩

theorem trans (h : g.Grows g') (h' : g'.Grows g'') : g.Grows g'' := by
  obtain ⟨hn, code, hl, hc⟩ := h
  obtain ⟨hn', code', hl', hc'⟩ := h'
  refine ⟨Nat.le_trans hn hn', code ++ code', by rw [hl', hl, List.append_assoc], fun i => ?_⟩
  have h₁ := hc i
  have h₂ := hc' i
  rw [labelsIn_append, List.count_append]
  split at h₁ <;> split at h₂ <;> split <;> omega

/-- Lines without local labels. -/
theorem add {code : List Line} (h : ∀ l ∈ labelsIn code, ¬IsLocalLabel l) :
    g.Grows (g.add 0 code) := by
  refine ⟨Nat.le_refl _, code, by simp [Generator.add], fun i => ?_⟩
  have h0 : (labelsIn code).count (labelName i) = 0 :=
    List.count_eq_zero_of_not_mem fun hi => h _ hi ⟨i, rfl⟩
  rw [h0]
  exact Nat.zero_le _

/-- A piece of code that may have left labels without a place. -/
theorem of_since {T : String → Prop} {own pending : List String}
    (h : g.Since T own pending g') : g.Grows g' := by
  obtain ⟨k, code, hn, hl, hlabels, -, -⟩ := h
  refine ⟨by omega, code, hl, fun i => ?_⟩
  have hc := hlabels.count_eq (labelName i)
  rw [List.count_append, count_drawn, ← hn] at hc
  omega

theorem prefix_lines (h : g.Grows g') : g.lines.toList <+: g'.lines.toList := by
  obtain ⟨-, code, hl, -⟩ := h
  exact ⟨code, hl.symm⟩

end Generator.Grows

/-! ## Procedures -/

/-- The lines with which the code of a procedure begins. -/
def ProcDecl.heading (d : ProcDecl) : List Line :=
  [plain .blank, plain (.exportName d.name), plain (.label d.name)]

theorem ProcDecl.labelsIn_heading (d : ProcDecl) : labelsIn d.heading = [d.name] := rfl

theorem ProcDecl.targetsIn_heading (d : ProcDecl) : targetsIn d.heading = [] := rfl

/-- Procedures with their lines, when the numbers of labels run from `n` to `m`. The local labels
that a procedure draws are placed once each, and its lines go to no other local label. -/
inductive Blocks : Nat → List ProcDecl → List (List Line) → Nat → Prop
  | nil {n : Nat} : Blocks n [] [] n
  | cons {n k m : Nat} {d : ProcDecl} {ds : List ProcDecl} {body : List Line}
      {bs : List (List Line)} :
      (labelsIn body).Perm (drawn n k) →
      (∀ l ∈ targetsIn body, ¬IsLocalLabel l ∨ l ∈ drawn n k) →
      Blocks (n + k) ds bs m → Blocks n (d :: ds) ((d.heading ++ body) :: bs) m

namespace Blocks

variable {n m k : Nat} {bs bs' : List (List Line)}

theorem append (h : Blocks n ds bs m) (h' : Blocks m ds' bs' k) :
    Blocks n (ds ++ ds') (bs ++ bs') k := by
  induction h with
  | nil => exact h'
  | cons hl ht _ ih => exact .cons hl ht (ih h')

theorem le (h : Blocks n ds bs m) : n ≤ m := by
  induction h with
  | nil => exact Nat.le_refl _
  | cons _ _ _ ih => omega

theorem headings (h : Blocks n ds bs m) :
    List.Forall₂ (fun d b => d.heading <+: b) ds bs := by
  induction h with
  | nil => exact .nil
  | cons _ _ _ ih => exact .cons (List.prefix_append _ _) ih

/-- Each label is placed once, and no other local label. -/
theorem count_labels (h : Blocks n ds bs m) (hnames : ∀ d ∈ ds, ¬IsLocalLabel d.name) (i : Nat) :
    (labelsIn bs.flatten).count (labelName i) = if n ≤ i ∧ i < m then 1 else 0 := by
  induction h with
  | nil =>
    rw [if_neg (by omega)]
    rfl
  | @cons n k m d _ body _ hlabels _ hbs ih =>
    have ih := ih fun d hd => hnames d (.tail _ hd)
    have hd : d.name ≠ labelName i := fun hd => hnames d (.head _) ⟨i, hd⟩
    have hbody := hlabels.count_eq (labelName i)
    have hle := hbs.le
    rw [count_drawn] at hbody
    rw [List.flatten_cons, labelsIn_append, labelsIn_append, d.labelsIn_heading, List.count_append,
      List.count_append, List.count_singleton, if_neg (by simpa using hd), hbody, ih]
    split <;> split <;> split <;> omega

/-- A block goes to no local label but its own ones. -/
theorem targets (h : Blocks n ds bs m) :
    ∀ b ∈ bs, ∀ l ∈ targetsIn b, IsLocalLabel l → l ∈ labelsIn b := by
  induction h with
  | nil => nofun
  | @cons _ _ _ d _ body _ hlabels htargets _ ih =>
    intro b hb l hl hlocal
    rcases List.mem_cons.1 hb with rfl | hb
    · rw [targetsIn_append, d.targetsIn_heading, List.nil_append] at hl
      rw [labelsIn_append]
      exact List.mem_append_right _ (hlabels.mem_iff.2 ((htargets l hl).resolve_left (· hlocal)))
    · exact ih b hb l hl hlocal

end Blocks

/-- How code generation for procedures ends that began in the state `g`. Of a fault nothing is
said. -/
inductive Finished (g : Generator) (ds : List ProcDecl) : Outcome Unit → Prop
  | ok {bs : List (List Line)} {g' : Generator} :
      Blocks g.nextLabel ds bs g'.nextLabel → g'.lines.toList = g.lines.toList ++ bs.flatten →
      g'.registers = g.registers → Finished g ds (.ok () g')
  | exhausted {p : Position} {g' : Generator} : g.Grows g' → g'.registers.push? = none →
      Finished g ds (.error (.error ⟨p, .registersExhausted⟩) g')
  | unallocated {p : Position} {name : String} {g' : Generator} : g.Grows g' →
      g'.registers = g.registers → Finished g ds (.error (.error ⟨p, .frameNotAllocated name⟩) g')
  | fault {f : Fault} {g' : Generator} : Finished g ds (.error (.fault f) g')

/-- No procedure of the list has the name of a local label, and none calls such a name. -/
def ProcDecl.AvoidLocalLabels (ds : List ProcDecl) : Prop :=
  ∀ d ∈ ds, ¬IsLocalLabel d.name ∧ ∀ c ∈ d.calls, ¬IsLocalLabel c.procedure

theorem Blocks.grows {bs : List (List Line)} (h : Blocks g.nextLabel ds bs g'.nextLabel)
    (hl : g'.lines.toList = g.lines.toList ++ bs.flatten) (hnames : ProcDecl.AvoidLocalLabels ds) :
    g.Grows g' :=
  ⟨h.le, _, hl, fun i => Nat.le_of_eq (h.count_labels (fun d hd => (hnames d hd).1) i)⟩

/-- Procedures, and then some more. -/
theorem Finished.bind {x y : Gen Unit} (hx : Finished g ds (x g))
    (hnames : ProcDecl.AvoidLocalLabels ds) (hy : ∀ g', Finished g' ds' (y g')) :
    Finished g (ds ++ ds') ((x >>= fun _ => y) g) := by
  show Finished g (ds ++ ds') (EStateM.bind x (fun _ => y) g)
  unfold EStateM.bind
  generalize x g = o at hx ⊢
  cases hx with
  | @ok bs g' hbs hlines hregs =>
    have hgrows := hbs.grows hlines hnames
    have hy' := hy g'
    dsimp only
    generalize y g' = o' at hy' ⊢
    cases hy' with
    | ok hbs' hlines' hregs' =>
      refine .ok (hbs.append hbs') ?_ (hregs'.trans hregs)
      rw [hlines', hlines, List.append_assoc, List.flatten_append]
    | exhausted h hpush => exact .exhausted (hgrows.trans h) hpush
    | unallocated h hregs' => exact .unallocated (hgrows.trans h) (hregs'.trans hregs)
    | fault => exact .fault
  | exhausted h hpush => exact .exhausted h hpush
  | unallocated h hregs => exact .unallocated h hregs
  | fault => exact .fault

section

variable {T : String → Prop} {s : RegisterStack} {P : Procedure} {size : Word}

theorem enterFrame_settles : Settles T [] [] s s (enterFrame P size) := by
  unfold enterFrame
  cases P.layout.isLeaf with
  | true => exact .note_bind .pure
  | false =>
    exact .lift_bind fun _ _ => .note_bind (.note_bind (.note_bind (.note_bind .pure)))

theorem leaveFrame_settles : Settles T [] [] s s (leaveFrame P size) := by
  unfold leaveFrame
  cases P.layout.isLeaf with
  | true => exact .note_bind .note
  | false => exact .lift_bind fun _ _ => .note_bind (.note_bind (.note_bind .note))

namespace ProcDecl

/-- The code of a procedure behind its name. -/
def framed (t : SymbolTable) (P : Procedure) (size : Word) (d : ProcDecl) : Gen Unit := do
  let addressing ← enterFrame P size
  Stmt.codeOf t addressing d.body
  leaveFrame P size

theorem framed_settles {d : ProcDecl} (h : ∀ c ∈ d.calls, ¬IsLocalLabel c.procedure) :
    Settles (¬IsLocalLabel ·) [] [] s s (d.framed t P size) :=
  .bind enterFrame_settles (fun _ => .inl) fun _ =>
    .bind (Stmt.codeOf_settles (T := (¬IsLocalLabel ·)) not_isLocalLabel_indexErrorRoutine d.body
      s h) (fun _ => .inl) fun _ => leaveFrame_settles

/-- There is no code for a procedure without a frame. -/
theorem code_cases (t : SymbolTable) (d : ProcDecl) (g : Generator) :
    (∃ f, d.code t g = .error (.fault f) g) ∨
    d.code t g = .error (.error ⟨d.position, .frameNotAllocated d.name⟩) g ∨
    ∃ P size, d.code t g = d.framed t P size (g.add 0 d.heading) := by
  unfold code
  cases t.procedure? d.name with
  | none => exact .inl ⟨_, rfl⟩
  | some P =>
    dsimp only
    cases P.layout.frameSize with
    | error f => exact .inl ⟨f, rfl⟩
    | ok size? =>
      cases size? with
      | none => exact .inr (.inl rfl)
      | some size => exact .inr (.inr ⟨P, size, rfl⟩)

/-- The code of one procedure. -/
theorem code_finished {d : ProcDecl} (h : AvoidLocalLabels [d]) :
    Finished g [d] (d.code t g) := by
  obtain ⟨hname, hcalls⟩ := h d (.head _)
  rcases code_cases t d g with ⟨f, hrun⟩ | hrun | ⟨P, size, hrun⟩
  · rw [hrun]
    exact .fault
  · rw [hrun]
    exact .unallocated (.refl g) rfl
  · have hheading : g.Grows (g.add 0 d.heading) := .add fun l hl => by
      rw [d.labelsIn_heading, List.mem_singleton] at hl
      exact hl ▸ hname
    have hsettled : Settled _ _ _ _ (d.framed t P size (g.add 0 d.heading)) :=
      framed_settles hcalls _ _ (.refl _ (g.add 0 d.heading)) rfl
    rw [hrun]
    generalize d.framed t P size (g.add 0 d.heading) = o at hsettled ⊢
    cases hsettled with
    | ok h hregs =>
      obtain ⟨k, body, hn, hlines, hlabels, -, htargets⟩ := h
      rw [List.append_nil] at hlabels
      have hblocks : Blocks (g.add 0 d.heading).nextLabel [d] [d.heading ++ body] _ :=
        .cons hlabels htargets .nil
      refine .ok (hn ▸ hblocks) ?_ hregs
      simp [hlines, Generator.add]
    | error h hpush => exact .exhausted (hheading.trans (.of_since h)) hpush
    | fault => exact .fault

end ProcDecl

end

/-- The code of procedures, one after the other. -/
theorem codeOfProcedures_finished : ∀ (ds : List ProcDecl) (g : Generator),
    ProcDecl.AvoidLocalLabels ds → Finished g ds (codeOfProcedures t ds g)
  | [], g, _ => .ok .nil (List.append_nil _).symm rfl
  | d :: ds, g, h => by
    unfold codeOfProcedures
    have hd : ProcDecl.AvoidLocalLabels [d] :=
      fun d' hd' => h d' (List.mem_singleton.1 hd' ▸ .head _)
    exact (d.code_finished hd).bind hd fun g' =>
      codeOfProcedures_finished ds g' fun d' hd' => h d' (.tail _ hd')

/-! ## Programs -/

/-- Generates code for a program in the state `g`: its error, if there is one, and the state in
which it ends. Nothing comes after a fault. -/
def Program.emit? (t : SymbolTable) (g : Generator) (p : Program) :
    Option (Option (Located CodegenError) × Generator) :=
  match (p.code t).run g with
  | .ok () g' => some (none, g')
  | .error (.error e) g' => some (some e, g')
  | .error (.fault _) _ => none

/-- Code is generated for one program after the other, whether there are errors or not. -/
inductive EmitAll (t : SymbolTable) : Generator → List Program → Generator → Prop
  | nil {g : Generator} : EmitAll t g [] g
  | cons {p : Program} {ps : List Program} {e : Option (Located CodegenError)}
      {g g' g'' : Generator} :
      p.emit? t g = some (e, g') → EmitAll t g' ps g'' → EmitAll t g (p :: ps) g''

/-- No procedure has the name of a local label, and none calls such a name. -/
def Program.AvoidsLocalLabels (p : Program) : Prop := ProcDecl.AvoidLocalLabels p.procedures

/-- The lines of a program whose labels have the numbers from `n` up to `m`: the beginning of a
module and a block for each procedure. Each label is placed once, and a block goes only to the
labels that are placed in it. -/
structure Program.ModuleOf (p : Program) (n m : Nat) (code : List Line) : Prop where
  blocks : ∃ blocks : List (List Line), code = prologueLines ++ blocks.flatten ∧
    List.Forall₂ (fun d block => d.heading <+: block) p.procedures blocks ∧
    ∀ block ∈ blocks, ∀ l ∈ targetsIn block, IsLocalLabel l → l ∈ labelsIn block
  placed : ∀ i, n ≤ i → i < m → (labelsIn code).count (labelName i) = 1

theorem prologue_run (g : Generator) : prologue g = .ok () (g.add 0 prologueLines) := by
  have h : Ends (fun _ => False) (fun _ g' => g' = g.add 0 prologueLines) prologue g :=
    prologue_ends
  unfold Ends at h
  cases hr : prologue g with
  | ok _ g' =>
    rw [hr] at h
    rw [h]
  | error e g' =>
    rw [hr] at h
    exact h.elim

theorem Program.code_run (t : SymbolTable) (p : Program) (g : Generator) :
    (p.code t).run g = codeOfProcedures t p.procedures (g.add 0 prologueLines) := by
  show EStateM.bind prologue (fun _ => codeOfProcedures t p.procedures) g = _
  unfold EStateM.bind
  rw [prologue_run]

theorem Generator.Grows.prologue (g : Generator) : g.Grows (g.add 0 prologueLines) :=
  .add fun l hl => nomatch (show l ∈ ([] : List String) from hl)

/-- How a program ends without a fault. -/
theorem Program.finished_of_emit? {p : Program} {e : Option (Located CodegenError)}
    (h : p.emit? t g = some (e, g')) (hp : p.AvoidsLocalLabels) :
    Finished (g.add 0 prologueLines) p.procedures
      (match e with | none => .ok () g' | some e => .error (.error e) g') := by
  have hf := codeOfProcedures_finished (t := t) p.procedures (g.add 0 prologueLines) hp
  rw [← p.code_run] at hf
  unfold emit? at h
  split at h
  · next hr =>
    cases h
    rwa [hr] at hf
  · next hr =>
    cases h
    rwa [hr] at hf
  · cases h

theorem Program.grows_of_emit? {p : Program} {e : Option (Located CodegenError)}
    (h : p.emit? t g = some (e, g')) (hp : p.AvoidsLocalLabels) : g.Grows g' := by
  have hf := finished_of_emit? h hp
  refine (Generator.Grows.prologue g).trans ?_
  cases e with
  | none =>
    cases hf with
    | ok hbs hlines _ => exact hbs.grows hlines hp
  | some e =>
    cases hf with
    | exhausted h _ => exact h
    | unallocated h _ => exact h

theorem EmitAll.grows {ps : List Program} (h : EmitAll t g ps g')
    (hps : ∀ p ∈ ps, p.AvoidsLocalLabels) : g.Grows g' := by
  induction h with
  | nil => exact .refl _
  | cons h _ ih =>
    exact (Program.grows_of_emit? h (hps _ (.head _))).trans (ih fun p hp => hps p (.tail _ hp))

/-- A program that ends without an error gives its registers back and appends its module. -/
theorem Program.moduleOf_of_emit? {p : Program} (h : p.emit? t g = some (none, g'))
    (hp : p.AvoidsLocalLabels) :
    g'.registers = g.registers ∧ ∃ code, g'.lines.toList = g.lines.toList ++ code ∧
      p.ModuleOf g.nextLabel g'.nextLabel code := by
  cases finished_of_emit? h hp with
  | @ok bs _ hbs hlines hregs =>
    rw [Generator.add_registers] at hregs
    rw [Generator.add_nextLabel, Nat.add_zero] at hbs
    refine ⟨hregs, prologueLines ++ bs.flatten, ?_, ⟨bs, rfl, hbs.headings, hbs.targets⟩, ?_⟩
    · simp [hlines, Generator.add]
    · intro i hi hi'
      have hc := hbs.count_labels (fun d hd => (hp d hd).1) i
      rw [if_pos ⟨hi, hi'⟩] at hc
      exact hc

theorem RegisterStack.current_of_push? {s : RegisterStack} (h : s.push? = none) :
    s.current = .lastFree := by
  have hs := s.above_lt
  unfold push? at h
  split at h
  · cases h
  · have he : s.above = 15 := by omega
    rw [current, he]
    rfl

/-- One state of code generation serves any sequence of programs, of which `p` is one. What is
there before stays, also behind `p`; no local label is placed twice by the whole sequence. A program
without an error leaves its module and the registers as they were, one whose frame is missing leaves
the registers as well, and one that is too complicated leaves the last register as the current
one. -/
theorem modules_sound (t : SymbolTable) (before after : List Program) (p : Program)
    (e : Option (Located CodegenError)) (g g' g'' : Generator)
    (hnames : ∀ q ∈ before ++ p :: after, q.AvoidsLocalLabels) (hbefore : EmitAll t {} before g)
    (hp : p.emit? t g = some (e, g')) (hafter : EmitAll t g' after g'') :
    (∃ code, g'.lines.toList = g.lines.toList ++ code ∧
      (e = none → p.ModuleOf g.nextLabel g'.nextLabel code)) ∧
    g'.lines.toList <+: g''.lines.toList ∧
    (∀ i, (labelsIn g''.lines.toList).count (labelName i) ≤ 1) ∧
    match e with
    | none | some ⟨_, .frameNotAllocated _⟩ => g'.registers = g.registers
    | some ⟨_, .registersExhausted⟩ => g'.registers.current = .lastFree := by
  have hpnames : p.AvoidsLocalLabels := hnames p (List.mem_append_right _ (.head _))
  have h₁ := hbefore.grows fun q hq => hnames q (List.mem_append_left _ hq)
  have h₂ := Program.grows_of_emit? hp hpnames
  have h₃ := hafter.grows fun q hq => hnames q (List.mem_append_right _ (.tail _ hq))
  refine ⟨?_, h₃.prefix_lines, fun i => ?_, ?_⟩
  · obtain ⟨code, hlines⟩ := h₂.prefix_lines
    refine ⟨code, hlines.symm, fun he => ?_⟩
    subst he
    obtain ⟨-, code', hlines', hmodule⟩ := Program.moduleOf_of_emit? hp hpnames
    rwa [List.append_cancel_left (hlines.trans hlines')]
  · -- The first state has no lines, so all lines are those of the whole sequence.
    obtain ⟨-, code, hlines, hcount⟩ := (h₁.trans h₂).trans h₃
    rw [hlines]
    refine Nat.le_trans (hcount i) ?_
    split <;> omega
  · have hf := Program.finished_of_emit? hp hpnames
    cases e with
    | none =>
      cases hf with
      | ok _ _ hregs => exact hregs.trans Generator.add_registers
    | some e =>
      cases hf with
      | exhausted _ hpush => exact RegisterStack.current_of_push? hpush
      | unallocated _ hregs => exact hregs.trans Generator.add_registers

section
open Build

/-- The table of a procedure `main` with one local variable, and of a procedure without a frame. -/
def unallocatedHelper : SymbolTable where
  scopes := [
    { entries := [
        ("main", .proc { localScope := ⟨1⟩, parameters := [], layout :=
          { argumentArea := some 0, localArea := some 4, outgoingArea := some 0 } }),
        ("helper", .proc { localScope := ⟨2⟩, parameters := [] })] },
    { enclosing := [⟨0⟩], entries := [
        ("i", .var { type := .int, isReference := false, offset := some (-4) })] },
    { enclosing := [⟨0⟩] }]

/-- A sum that is nested to the given depth. -/
def nestedSum : Nat → Expr
  | 0 => int 1
  | n + 1 => binary (.arith .add) (int 1) (nestedSum n)

/-- A procedure with a loop that adds up so many numbers. -/
def sumLoop (depth : Nat) : Decl := procDecl "main" [] [varDecl "i" intType] [
  whileDo (binary (.compare .lst) (var (named "i")) (int 9))
    (assign (named "i") (nestedSum depth))]

/-- A program that is too complicated. -/
def deepSum : Program := program [sumLoop 15]

/-- A program with code. -/
def flatSum : Program := program [sumLoop 1]

/-- A program whose second procedure has no frame. -/
def sumAndHelper : Program := program [sumLoop 1, procDecl "helper" [] [] []]

/-- The first program draws two labels before a frame is missing, the next one two others. The last
one draws two more, and places only one of them before it runs out of registers. -/
theorem modules_sound_flatSum : ∃ g g' g'' e,
    EmitAll unallocatedHelper {} [sumAndHelper] g ∧
    flatSum.emit? unallocatedHelper g = some (none, g') ∧
    deepSum.emit? unallocatedHelper g' = some (some e, g'') ∧ e.cause = .registersExhausted ∧
    g.nextLabel = 2 ∧ g'.nextLabel = 4 ∧ g''.nextLabel = 6 ∧
    (∃ code, g'.lines.toList = g.lines.toList ++ code ∧ flatSum.ModuleOf 2 4 code) ∧
    g'.lines.toList <+: g''.lines.toList ∧
    (∀ i, (labelsIn g''.lines.toList).count (labelName i) ≤ 1) ∧
    (labelsIn g''.lines.toList).count (labelName 5) = 0 ∧ g'.registers = g.registers := by
  have hrun : (sumAndHelper.emit? unallocatedHelper {}).bind (fun x =>
      (flatSum.emit? unallocatedHelper x.2).bind fun y =>
        (deepSum.emit? unallocatedHelper y.2).map fun z =>
          ([x, y, z].map fun u => (u.1.map (·.cause), u.2.nextLabel),
            (labelsIn z.2.lines.toList).count (labelName 5))) =
      some ([(some (.frameNotAllocated "helper"), 2), (none, 4), (some .registersExhausted, 6)],
        0) := by decide +kernel
  obtain ⟨⟨e₁, g⟩, h₁, hrun⟩ := Option.bind_eq_some_iff.1 hrun
  obtain ⟨⟨e₂, g'⟩, h₂, hrun⟩ := Option.bind_eq_some_iff.1 hrun
  obtain ⟨⟨e₃, g''⟩, h₃, hrun⟩ := Option.map_eq_some_iff.1 hrun
  simp only [List.map_cons, List.map_nil, Prod.mk.injEq, List.cons.injEq, and_true,
    Option.map_eq_none_iff, Option.map_eq_some_iff] at hrun
  obtain ⟨⟨⟨-, hn⟩, ⟨rfl, hn'⟩, ⟨e, rfl, he⟩, hn''⟩, hpending⟩ := hrun
  have hnames : ∀ q ∈ [sumAndHelper] ++ flatSum :: [deepSum], q.AvoidsLocalLabels := by
    have h : ∀ q ∈ [sumAndHelper] ++ flatSum :: [deepSum], ∀ d ∈ q.procedures,
        d.name.toList.head? ≠ some 'L' ∧ d.calls = [] := by decide +kernel
    intro q hq d hd
    obtain ⟨hname, hcalls⟩ := h q hq d hd
    refine ⟨not_isLocalLabel hname, fun c hc => ?_⟩
    rw [hcalls] at hc
    cases hc
  have hbefore : EmitAll unallocatedHelper {} [sumAndHelper] g := .cons h₁ .nil
  obtain ⟨⟨code, hlines, hmodule⟩, hprefix, hcount, hregs⟩ := modules_sound unallocatedHelper
    [sumAndHelper] [deepSum] flatSum none g g' g'' hnames hbefore h₂ (.cons h₃ .nil)
  rw [hn, hn'] at hmodule
  exact ⟨g, g', g'', e, hbefore, h₂, h₃, he, hn, hn', hn'', ⟨code, hlines, hmodule rfl⟩, hprefix,
    hcount, hpending, hregs⟩

end

end Spl
