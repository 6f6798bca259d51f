import Spl.Tool.Environment

/-!
# What the tool is given

What a command line asks for, and in which format a file is read, said apart from the functions that
find it out.

* `CommandLine.Earliest`: the earliest phase after which a flag asks to stop.
* `CommandLine.Asks`: what a command line asks for.
* `HasExtension`, `Format.Suits`: the format that the path of a file asks for.
-/

namespace Spl

/-! ## Command lines -/

namespace CommandLine

/-- The phase after which a flag asks to stop. -/
def Flag.stop? : Flag → Option Phase
  | .tables => some .declarations
  | .semant => some .bodies
  | .vars => some .frames
  | .leaf => none

/-- A phase is the earliest after which one of the flags that are given asks to stop, or the last of
all phases if none does. -/
structure Earliest (g : Matches) (phase : Phase) : Prop where
  least : ∀ f, g.isPresent f = true → ∀ p, f.stop? = some p → phase.rank ≤ p.rank
  asked : phase = .code ∨ ∃ f, g.isPresent f = true ∧ f.stop? = some phase

theorem Matches.lastPhase_earliest (g : Matches) : Earliest g g.lastPhase := by
  unfold lastPhase
  constructor
  · intro f hf p hp
    cases f with
    | tables =>
      rw [if_pos hf]
      exact Nat.zero_le _
    | semant =>
      cases hp
      rw [if_pos hf]
      split <;> decide
    | vars =>
      cases hp
      rw [if_pos hf]
      split
      · decide
      · split <;> decide
    | leaf => cases hp
  · by_cases htables : g.isPresent .tables = true
    · rw [if_pos htables]
      exact .inr ⟨_, htables, rfl⟩
    by_cases hsemant : g.isPresent .semant = true
    · rw [if_neg htables, if_pos hsemant]
      exact .inr ⟨_, hsemant, rfl⟩
    by_cases hvars : g.isPresent .vars = true
    · rw [if_neg htables, if_neg hsemant, if_pos hvars]
      exact .inr ⟨_, hvars, rfl⟩
    · rw [if_neg htables, if_neg hsemant, if_neg hvars]
      exact .inl rfl

/-- What a command line asks for. -/
structure Asks (g : Matches) (i : Invocation) : Prop where
  input : g.value? .input = some i.input
  output : i.output = g.value? .output
  /-- The program begins with the procedure that is named, or with `main`. -/
  entry : i.options.entry = (g.value? .entry).getD "main"
  leaves : i.options.leaves = g.isPresent .leaf
  lastPhase : Earliest g i.options.lastPhase

/-- A command line with an input asks for something. -/
theorem Matches.exists_asks {g : Matches} (h : (g.value? .input).isSome = true) :
    ∃ i, g.invocation? = some i ∧ i.options = g.options ∧ Asks g i := by
  obtain ⟨input, hinput⟩ := Option.isSome_iff_exists.1 h
  refine ⟨{ input, output := g.value? .output, options := g.options, logLevel := g.logLevel? },
    ?_, rfl, hinput, rfl, rfl, rfl, g.lastPhase_earliest⟩
  unfold invocation?
  rw [hinput]
  rfl

end CommandLine

/-! ## Formats -/

/-- The last name on a path is some text, a dot and `e`. -/
def HasExtension (path e : String) : Prop :=
  ∃ stem, stem ≠ "" ∧ (pathNames path).getLast? = some (stem ++ "." ++ e)

/-- A file is in the second format exactly if its path says so. -/
def Format.Suits (format : Format) (path : String) : Prop :=
  format = .yaml ↔ HasExtension path "yaml" ∨ HasExtension path "yml"

/-- A text up to its last dot, and what follows it. -/
theorem eq_append_of_dropWhile {cs rest : List Char} {x y : Char}
    (h : cs.reverse.dropWhile (· ≠ '.') = x :: y :: rest) :
    cs = (y :: rest).reverse ++ '.' :: (cs.reverse.takeWhile (· ≠ '.')).reverse := by
  have hx : x = '.' := by
    have hhead := List.head?_dropWhile_not (· ≠ '.') cs.reverse
    rw [h] at hhead
    simpa using hhead
  calc cs = (cs.reverse.takeWhile (· ≠ '.') ++ cs.reverse.dropWhile (· ≠ '.')).reverse := by
        rw [List.takeWhile_append_dropWhile, List.reverse_reverse]
    _ = (y :: rest).reverse ++ '.' :: (cs.reverse.takeWhile (· ≠ '.')).reverse := by
        rw [h, hx, List.reverse_append, List.reverse_cons, List.append_assoc]
        rfl

/-- What the last dot divides, where it does. -/
theorem takeWhile_dropWhile_append (stem : List Char) {e : List Char} (he : '.' ∉ e) :
    (stem ++ '.' :: e).reverse.takeWhile (· ≠ '.') = e.reverse ∧
      (stem ++ '.' :: e).reverse.dropWhile (· ≠ '.') = '.' :: stem.reverse := by
  have hne : ∀ x ∈ e.reverse, decide (x ≠ '.') = true := by
    intro x hx
    refine decide_eq_true fun heq => he ?_
    rw [← heq]
    exact List.mem_reverse.1 hx
  rw [List.reverse_append, List.reverse_cons, List.append_assoc,
    List.takeWhile_append_of_pos hne, List.dropWhile_append_of_pos hne]
  exact ⟨List.append_nil _, rfl⟩

theorem afterDot?_eq_some_iff {name e : String} (he : '.' ∉ e.toList) :
    afterDot? name = some e ↔ ∃ stem, stem ≠ "" ∧ name = stem ++ "." ++ e := by
  have htoList (stem : String) : (stem ++ "." ++ e).toList = stem.toList ++ '.' :: e.toList := by
    rw [String.toList_append, String.toList_append, List.append_assoc]
    rfl
  constructor
  · intro h
    unfold afterDot? at h
    dsimp only at h
    split at h
    · cases h
    · cases h
    · next x y rest hdrop =>
      cases h
      refine ⟨String.ofList (y :: rest).reverse, ?_, ?_⟩
      · simp
      · rw [← String.toList_inj, htoList, String.toList_ofList, String.toList_ofList]
        exact eq_append_of_dropWhile hdrop
  · rintro ⟨stem, hstem, rfl⟩
    obtain ⟨htake, hdrop⟩ := takeWhile_dropWhile_append stem.toList he
    have hne : stem.toList.reverse ≠ [] := by simpa using hstem
    obtain ⟨x, xs, hx⟩ := List.exists_cons_of_ne_nil hne
    unfold afterDot?
    dsimp only
    rw [htoList, hdrop, htake, hx]
    simp

/-- The extension of a path, by its last name. -/
theorem extension?_eq_some_iff {path e : String} (he : '.' ∉ e.toList) (hne : e ≠ "") :
    extension? path = some e ↔ HasExtension path e := by
  unfold extension? fileName? HasExtension
  cases (pathNames path).getLast? with
  | none => simp
  | some name =>
    dsimp only
    split
    · next hname =>
      simp only [Option.bind_none, reduceCtorEq, false_iff]
      rintro ⟨stem, hstem, heq⟩
      -- a name of two letters is too short
      have hlength : "..".length = (stem ++ "." ++ e).length :=
        congrArg String.length (hname.symm.trans (Option.some.inj heq))
      have htwo : "..".length = 2 := by decide
      have hone : ".".length = 1 := by decide
      rw [String.length_append, String.length_append] at hlength
      have hstem : stem.length ≠ 0 := by simpa using hstem
      have hne : e.length ≠ 0 := by simpa using hne
      omega
    · rw [Option.bind_some, afterDot?_eq_some_iff he]
      simp

theorem Format.ofPath_suits (path : String) : (Format.ofPath path).Suits path := by
  have hyaml : extension? path = some "yaml" ↔ HasExtension path "yaml" :=
    extension?_eq_some_iff (by decide) (by decide)
  have hyml : extension? path = some "yml" ↔ HasExtension path "yml" :=
    extension?_eq_some_iff (by decide) (by decide)
  unfold Suits
  rw [← hyaml, ← hyml, ofPath]
  split
  · next h => exact ⟨fun _ => h, fun _ => rfl⟩
  · next h => exact ⟨nofun, fun h' => absurd h' h⟩

theorem Format.suits_iff {format : Format} {path : String} :
    format.Suits path ↔ format = .ofPath path := by
  refine ⟨fun h => ?_, fun h => h ▸ ofPath_suits path⟩
  have hiff : format = .yaml ↔ Format.ofPath path = .yaml := h.trans (ofPath_suits path).symm
  cases format <;> cases hpath : Format.ofPath path <;> simp_all

end Spl
