import Spl.Proofs.Tree.Slots

/-!
# Bodies at places where names mean the same

The rules see of a name only the type and the kind of its variable, or the parameters of its
procedure. Where names stand for the same in this sense, the same bodies obey the rules, and the
check fills the slots of a body with the same types.

* `Meaning.Within`: what a name stands for at one place, it stands for at another one.
* `Expr.Derives.mono`, `Stmt.Derivable.mono`: the rules.
* `Expr.Same.euclid`, `ProcDecl.Same.euclid`: two trees that differ from a third one in slots.
* `Stmt.SameAll.eq`: trees that differ in slots only, but whose slots hold the derived types.
-/

namespace Spl

/-- What a name stands for at the first place, it stands for at the second one. Procedures may have
other local scopes there. -/
structure Meaning.Within (N N' : Meaning) : Prop where
  var : ∀ {name v}, N name = some (.var v) → N' name = some (.var v)
  proc : ∀ {name P}, N name = some (.proc P) →
    ∃ P', N' name = some (.proc P') ∧ P'.parameters = P.parameters

variable {N N' : Meaning}

/-! ## The rules -/

mutual

theorem Expr.Derives.mono (hN : N.Within N') : ∀ {e : Expr} {ty : Ty},
    e.Derives N ty → e.Derives N' ty
  | _, _, .literal => .literal
  | _, _, .designator h => .designator (h.mono hN)
  | _, _, .unary h hb => .unary (h.mono hN) hb
  | _, _, .arith hl hr => .arith (hl.mono hN) (hr.mono hN)
  | _, _, .compare hl hr => .compare (hl.mono hN) (hr.mono hN)

theorem Designator.Derives.mono (hN : N.Within N') : ∀ {d : Designator} {ty : Ty},
    d.Derives N ty → d.Derives N' ty
  | _, _, .named h => .named (hN.var h)
  | _, _, .element hi ha => .element (hi.mono hN) (ha.mono hN)
  | _, _, .field hr hf => .field (hr.mono hN) hf

end

theorem Call.Derivable.mono (hN : N.Within N') {c : Call} (h : c.Derivable N) : c.Derivable N' := by
  obtain ⟨P, hP, hargs⟩ := h
  obtain ⟨P', hP', hparameters⟩ := hN.proc hP
  refine ⟨P', hP', hparameters ▸ hargs.imp fun e v he => ?_⟩
  exact ⟨he.1.mono hN, he.2⟩

theorem Stmt.Derivable.mono (hN : N.Within N') {s : Stmt} (h : s.Derivable N) : s.Derivable N' := by
  induction h with
  | assign hd he ha => exact .assign (hd.mono hN) (he.mono hN) ha
  | ifElse he _ _ ih₁ ih₂ => exact .ifElse (he.mono hN) ih₁ ih₂
  | whileDo he _ ih => exact .whileDo (he.mono hN) ih
  | call hc => exact .call (hc.mono hN)
  | compound _ ih => exact .compound ih
  | empty => exact .empty

/-! ## Trees that differ in slots -/

mutual

theorem Expr.Same.euclid : ∀ {e e' e'' : Expr}, e.Same e' → e.Same e'' → e'.Same e''
  | _, _, _, .literal, .literal => .literal
  | _, _, _, .designator h, .designator h' => .designator (h.euclid h')
  | _, _, _, .unary h, .unary h' => .unary (h.euclid h')
  | _, _, _, .binary hl hr, .binary hl' hr' => .binary (hl.euclid hl') (hr.euclid hr')

theorem Designator.Same.euclid : ∀ {d d' d'' : Designator}, d.Same d' → d.Same d'' → d'.Same d''
  | _, _, _, .named, .named => .named
  | _, _, _, .element ha hi, .element ha' hi' => .element (ha.euclid ha') (hi.euclid hi')
  | _, _, _, .field h, .field h' => .field (h.euclid h')

end

theorem Expr.forall₂_same_euclid : ∀ {es es' es'' : List Expr}, List.Forall₂ Expr.Same es es' →
    List.Forall₂ Expr.Same es es'' → List.Forall₂ Expr.Same es' es''
  | _, _, _, .nil, .nil => .nil
  | _, _, _, .cons h hs, .cons h' hs' => .cons (h.euclid h') (forall₂_same_euclid hs hs')

mutual

theorem Stmt.Same.euclid : ∀ {s s' s'' : Stmt}, s.Same s' → s.Same s'' → s'.Same s''
  | _, _, _, .assign hd he, .assign hd' he' => .assign (hd.euclid hd') (he.euclid he')
  | _, _, _, .ifElse he h₁ h₂, .ifElse he' h₁' h₂' =>
    .ifElse (he.euclid he') (h₁.euclid h₁') (h₂.euclid h₂')
  | _, _, _, .whileDo he h, .whileDo he' h' => .whileDo (he.euclid he') (h.euclid h')
  | _, _, _, .call h, .call h' => .call (Expr.forall₂_same_euclid h h')
  | _, _, _, .compound h, .compound h' => .compound (h.euclid h')
  | _, _, _, .empty, .empty => .empty

theorem Stmt.SameAll.euclid : ∀ {ss ss' ss'' : List Stmt}, Stmt.SameAll ss ss' →
    Stmt.SameAll ss ss'' → Stmt.SameAll ss' ss''
  | _, _, _, .nil, .nil => .nil
  | _, _, _, .cons h hs, .cons h' hs' => .cons (h.euclid h') (hs.euclid hs')

end

theorem ProcDecl.Same.euclid {d d' d'' : ProcDecl} (h : d.Same d') (h' : d.Same d'') :
    d'.Same d'' :=
  ⟨h'.1.trans h.1.symm, h.2.euclid h'.2⟩

/-! ## Slots with the derived types -/

/-- Nodes to which the rules give the same type have the same slot. -/
theorem SlotsExact.slot_eq {x x' : Node} {xs xs' : List Node} (h : SlotsExact N (x :: xs))
    (h' : SlotsExact N' (x' :: xs')) (hd : ∀ ty, x.Derives N ty → x'.Derives N' ty) :
    x.slot = x'.slot := by
  obtain ⟨ty, hs, hty⟩ := h x (.head _)
  obtain ⟨ty', hs', hty'⟩ := h' x' (.head _)
  cases (hd ty hty).unique hty'
  exact congrArg TypeSlot.mk (hs.trans hs'.symm)

theorem SlotsExact.tail {x : Node} {xs : List Node} (h : SlotsExact N (x :: xs)) :
    SlotsExact N xs := fun y hy => h y (.tail _ hy)

theorem SlotsExact.left {xs ys : List Node} (h : SlotsExact N (xs ++ ys)) : SlotsExact N xs :=
  fun x hx => h x (List.mem_append_left _ hx)

theorem SlotsExact.right {xs ys : List Node} (h : SlotsExact N (xs ++ ys)) : SlotsExact N ys :=
  fun x hx => h x (List.mem_append_right _ hx)

mutual

theorem Expr.Same.eq (hN : N.Within N') : ∀ {e e' : Expr}, e.Same e' → SlotsExact N e.nodes →
    SlotsExact N' e'.nodes → e = e'
  | _, _, .literal, h, h' => by
    cases h.slot_eq h' fun _ hd => Expr.Derives.mono hN (Expr.Derives.congr .literal hd)
    rfl
  | _, _, .designator hs, h, h' => by
    cases h.slot_eq h' fun _ hd => Expr.Derives.mono hN (Expr.Derives.congr (.designator hs) hd)
    rw [hs.eq hN h.tail h'.tail]
  | _, _, .unary hs, h, h' => by
    cases h.slot_eq h' fun _ hd => Expr.Derives.mono hN (Expr.Derives.congr (.unary hs) hd)
    rw [hs.eq hN h.tail h'.tail]
  | _, _, .binary hl hr, h, h' => by
    cases h.slot_eq h' fun _ hd => Expr.Derives.mono hN (Expr.Derives.congr (.binary hl hr) hd)
    rw [hl.eq hN h.tail.left h'.tail.left, hr.eq hN h.tail.right h'.tail.right]

theorem Designator.Same.eq (hN : N.Within N') : ∀ {d d' : Designator}, d.Same d' →
    SlotsExact N d.nodes → SlotsExact N' d'.nodes → d = d'
  | _, _, .named, h, h' => by
    cases h.slot_eq h' fun _ hd => Designator.Derives.mono hN (Designator.Derives.congr .named hd)
    rfl
  | _, _, .element ha hi, h, h' => by
    cases h.slot_eq h' fun _ hd =>
      Designator.Derives.mono hN (Designator.Derives.congr (.element ha hi) hd)
    rw [ha.eq hN h.tail.left h'.tail.left, hi.eq hN h.tail.right h'.tail.right]
  | _, _, .field hs, h, h' => by
    cases h.slot_eq h' fun _ hd =>
      Designator.Derives.mono hN (Designator.Derives.congr (.field hs) hd)
    rw [hs.eq hN h.tail h'.tail]

end

theorem Expr.eq_of_forall₂_same (hN : N.Within N') : ∀ {es es' : List Expr},
    List.Forall₂ Expr.Same es es' → SlotsExact N (es.flatMap Expr.nodes) →
    SlotsExact N' (es'.flatMap Expr.nodes) → es = es'
  | _, _, .nil, _, _ => rfl
  | _, _, .cons hs hss, h, h' => by
    rw [List.flatMap_cons] at h h'
    rw [hs.eq hN h.left h'.left, eq_of_forall₂_same hN hss h.right h'.right]

mutual

/-- Statements that differ in slots only are equal if the slots hold the derived types. -/
theorem Stmt.Same.eq (hN : N.Within N') : ∀ {s s' : Stmt}, s.Same s' → SlotsExact N s.nodes →
    SlotsExact N' s'.nodes → s = s'
  | _, _, .assign hd he, h, h' => by rw [hd.eq hN h.left h'.left, he.eq hN h.right h'.right]
  | _, _, .ifElse he h₁ h₂, h, h' => by
    rw [he.eq hN h.left h'.left, h₁.eq hN h.right.left h'.right.left,
      h₂.eq hN h.right.right h'.right.right]
  | _, _, .whileDo he hs, h, h' => by rw [he.eq hN h.left h'.left, hs.eq hN h.right h'.right]
  | _, _, .call hs, h, h' => by rw [Expr.eq_of_forall₂_same hN hs h h']
  | _, _, .compound hs, h, h' => by rw [hs.eq hN h h']
  | _, _, .empty, _, _ => rfl

theorem Stmt.SameAll.eq (hN : N.Within N') : ∀ {ss ss' : List Stmt}, Stmt.SameAll ss ss' →
    SlotsExact N (Stmt.nodesOf ss) → SlotsExact N' (Stmt.nodesOf ss') → ss = ss'
  | _, _, .nil, _, _ => rfl
  | _, _, .cons hs hss, h, h' => by rw [hs.eq hN h.left h'.left, hss.eq hN h.right h'.right]

end

end Spl
