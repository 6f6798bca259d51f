import Spl.Json.Value

/-!
# JSON tokens

A JSON text is a sequence of brackets, braces, colons, commas and scalars, with blanks between
them. The rules are those of RFC 8259, and strict: nothing else may stand between tokens, a string
holds no control character, and a number has no leading zero.

* `Token.scan?`: the tokens of a text, or nothing if some part of it is not a token.
* `Token.string?_length`: reading a string leaves less than there was.
-/

namespace Spl

namespace Json

/-- A token of a JSON text. Strings, numbers and the three literal names are scalars. -/
inductive Token where
  | openArray
  | closeArray
  | openObject
  | closeObject
  | colon
  | comma
  | scalar (value : Json)
  deriving Inhabited

namespace Token

/-- The characters that may stand between tokens. -/
def isBlank (c : Char) : Bool := c = ' ' || c = '\t' || c = '\n' || c = '\r'

/-- The token that a single character makes. -/
def punctuation? (c : Char) : Option Token :=
  match c with
  | '[' => some .openArray
  | ']' => some .closeArray
  | '\x7b' => some .openObject
  | '\x7d' => some .closeObject
  | ':' => some .colon
  | ',' => some .comma
  | _ => none

/-! ## Strings -/

/-- The quotation mark around strings. -/
def quote : Char := '\x22'

/-- The mark that begins an escape. -/
def backslash : Char := '\x5c'

/-- The value of a hexadecimal digit. -/
def hexDigit? (c : Char) : Option Nat :=
  if '0' ≤ c ∧ c ≤ '9' then some (c.toNat - '0'.toNat)
  else if 'a' ≤ c ∧ c ≤ 'f' then some (c.toNat - 'a'.toNat + 10)
  else if 'A' ≤ c ∧ c ≤ 'F' then some (c.toNat - 'A'.toNat + 10)
  else none

/-- The value of four hexadecimal digits. -/
def hexUnit? (a b c d : Char) : Option Nat := do
  return (((← hexDigit? a) * 16 + (← hexDigit? b)) * 16 + (← hexDigit? c)) * 16 + (← hexDigit? d)

/-- The character that a one-letter escape stands for. -/
def escaped? (c : Char) : Option Char :=
  if c = quote ∨ c = backslash ∨ c = '/' then some c
  else match c with
  | 'b' => some '\x08'
  | 'f' => some '\x0c'
  | 'n' => some '\n'
  | 'r' => some '\r'
  | 't' => some '\t'
  | _ => none

/-- Reads a string literal after its opening quotation mark: the code points and surrogates that it
holds, in front of which `done` stands in reverse, and the characters after the literal. -/
def literal? (done : List Nat) : List Char → Option (List Nat × List Char)
  | [] => none
  | c :: rest =>
    if c = quote then some (done.reverse, rest)
    else if c.toNat < 0x20 then none
    else if c ≠ backslash then literal? (c.toNat :: done) rest
    else match rest with
    | 'u' :: d₁ :: d₂ :: d₃ :: d₄ :: rest => do
      literal? ((← hexUnit? d₁ d₂ d₃ d₄) :: done) rest
    | e :: rest => do literal? ((← escaped? e).toNat :: done) rest
    | [] => none

/-- The first half of a surrogate pair. -/
def isHighSurrogate (n : Nat) : Bool := 0xd800 ≤ n && n < 0xdc00

/-- The second half of a surrogate pair. -/
def isLowSurrogate (n : Nat) : Bool := 0xdc00 ≤ n && n < 0xe000

/-- The text of code points and surrogates, in which each surrogate must belong to a pair. -/
def paired? : List Nat → Option (List Char)
  | [] => some []
  | [n] => if isHighSurrogate n || isLowSurrogate n then none else some [Char.ofNat n]
  | m :: n :: rest =>
    if isHighSurrogate m && isLowSurrogate n then do
      let c := Char.ofNat (0x10000 + (m - 0xd800) * 0x400 + (n - 0xdc00))
      return c :: (← paired? rest)
    else if isHighSurrogate m || isLowSurrogate m then none
    else do return Char.ofNat m :: (← paired? (n :: rest))

/-- Reads a string after its opening quotation mark. -/
def string? (cs : List Char) : Option (Json × List Char) := do
  let (points, rest) ← literal? [] cs
  let value :=
    match paired? points with
    | some text => .string (String.ofList text)
    | none => .illFormed
  return (value, rest)

theorem literal?_length {done points : List Nat} {cs rest : List Char}
    (h : literal? done cs = some (points, rest)) : rest.length < cs.length := by
  fun_induction literal? done cs with
  | case1 => cases h
  | case2 => simp_all
  | case3 => cases h
  | case4 done c r _ _ _ ih =>
    have := ih h
    simp only [List.length_cons]
    omega
  | case5 done c _ _ d₁ d₂ d₃ d₄ r _ ih =>
    obtain ⟨n, _, h⟩ := Option.bind_eq_some_iff.1 h
    have := ih n h
    simp only [List.length_cons]
    omega
  | case6 done c _ _ e r _ _ ih =>
    obtain ⟨n, _, h⟩ := Option.bind_eq_some_iff.1 h
    have := ih n h
    simp only [List.length_cons]
    omega
  | case7 => cases h

theorem string?_length {cs rest : List Char} {v : Json} (h : string? cs = some (v, rest)) :
    rest.length < cs.length := by
  obtain ⟨⟨points, r⟩, hl, h⟩ := Option.bind_eq_some_iff.1 h
  simp only [pure, Option.some.injEq, Prod.mk.injEq] at h
  exact h.2 ▸ literal?_length hl

/-! ## Numbers and names -/

/-- Splits off the longest run of digits. -/
def digits (cs : List Char) : List Char × List Char := cs.span Char.isDigit

/-- The number that decimal digits denote. -/
def natOfDigits (cs : List Char) : Nat := cs.foldl (fun n c => n * 10 + (c.toNat - '0'.toNat)) 0

/-- What may stand after the integer part of a number: nothing, a fraction, an exponent or both. -/
def isNumberTail (cs : List Char) : Bool :=
  match cs with
  | '.' :: rest =>
    let (fraction, rest) := digits rest
    !fraction.isEmpty && isExponent rest
  | _ => isExponent cs
where
  /-- Nothing, or the letter `e`, a sign that may be absent, and digits. -/
  isExponent : List Char → Bool
    | [] => true
    | e :: rest =>
      (e = 'e' || e = 'E') &&
        match rest with
        | '+' :: rest | '-' :: rest => isDigits rest
        | _ => isDigits rest
  /-- At least one digit, and nothing else. -/
  isDigits (cs : List Char) : Bool := !cs.isEmpty && cs.all Char.isDigit

/-- The number that a word spells. -/
def number? (word : List Char) : Option Json :=
  let (isNegative, rest) :=
    match word with
    | '-' :: rest => (true, rest)
    | _ => (false, word)
  let (whole, tail) := digits rest
  let hasLeadingZero := whole.length > 1 && whole.head? = some '0'
  if whole.isEmpty || hasLeadingZero || !isNumberTail tail then none
  else
    let n := natOfDigits whole
    if !tail.isEmpty || (isNegative && n = 0) then some (.decimal (String.ofList word))
    else some (.int (if isNegative then -n else n))

/-- The scalar that a word spells: a number or one of the three literal names. -/
def word? (word : List Char) : Option Json :=
  if word = "null".toList then some .null
  else if word = "true".toList then some (.bool true)
  else if word = "false".toList then some (.bool false)
  else number? word

/-! ## Texts -/

/-- The characters that end a word. -/
def isDelimiter (c : Char) : Bool := isBlank c || (punctuation? c).isSome || c = quote

/-- Reads the tokens of a text, in front of which `done` stands in reverse. -/
def scanFrom? (done : List Token) (cs : List Char) : Option (List Token) :=
  match cs with
  | [] => some done.reverse
  | c :: rest =>
    if isBlank c then scanFrom? done rest
    else if c = quote then
      match h : string? rest with
      | none => none
      | some (v, after) =>
        have := string?_length h
        scanFrom? (.scalar v :: done) after
    else match punctuation? c with
    | some token => scanFrom? (token :: done) rest
    | none =>
      match word? (c :: rest.takeWhile (!isDelimiter ·)) with
      | none => none
      | some v =>
        have := (rest.dropWhile_sublist (!isDelimiter ·)).length_le
        scanFrom? (.scalar v :: done) (rest.dropWhile (!isDelimiter ·))
termination_by cs.length
decreasing_by all_goals (simp only [List.length_cons]; omega)

/-- The tokens of a text, or nothing if some part of it is not a token. -/
def scan? (text : String) : Option (List Token) := scanFrom? [] text.toList

end Token

end Json

end Spl
