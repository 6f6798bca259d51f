import Spl.Json.Token

/-!
# Reading JSON

The tokens of a text are read one after the other. A `Reader` knows which tokens may follow and
holds what has been read of the arrays and objects that are still open.

* `Json.read?`: the value that a text denotes, or nothing if the text is not JSON.
-/

namespace Spl

namespace Json

/-- An array or object that is still open while one of its values is read: what stands before that
value, in reverse. A key without a text is `none`. -/
inductive Pending where
  | element (before : List Json)
  | field (before : List (Option String × Json)) (key : Option String)

/-- A place in a JSON text, by what has been read before it. The open arrays and objects around the
place are listed from the inside out. -/
inductive Reader where
  /-- A value must follow. -/
  | value (outer : List Pending)
  /-- An array has been opened. -/
  | firstElement (outer : List Pending)
  /-- An object has been opened. -/
  | firstField (outer : List Pending)
  /-- A key must follow. -/
  | nextField (before : List (Option String × Json)) (outer : List Pending)
  /-- A colon must follow. -/
  | afterKey (before : List (Option String × Json)) (key : Option String) (outer : List Pending)
  /-- An element of an array has been read. -/
  | afterElement (before : List Json) (outer : List Pending)
  /-- A field of an object has been read. -/
  | afterField (before : List (Option String × Json)) (outer : List Pending)
  /-- A value has been read, and nothing may follow. -/
  | finished (value : Json)
  deriving Inhabited

namespace Reader

/-- The place after a value has been read. -/
def deliver (v : Json) : List Pending → Reader
  | [] => .finished v
  | .element before :: outer => .afterElement (v :: before) outer
  | .field before key :: outer => .afterField ((key, v) :: before) outer

/-- Reads the first token of a value. -/
def begin? (outer : List Pending) : Token → Option Reader
  | .scalar v => some (deliver v outer)
  | .openArray => some (.firstElement outer)
  | .openObject => some (.firstField outer)
  | .closeArray | .closeObject | .colon | .comma => none

/-- Reads a key. -/
def key? (before : List (Option String × Json)) (outer : List Pending) : Token → Option Reader
  | .scalar (.string key) => some (.afterKey before (some key) outer)
  | .scalar .illFormed => some (.afterKey before none outer)
  | _ => none

/-- The object with the given fields, in reverse. -/
def objectOf (before : List (Option String × Json)) : Json :=
  match before.reverse.mapM fun (key?, v) => key?.map (·, v) with
  | some fields => .object fields
  | none => .illFormed

/-- Reads a token. -/
def step? : Reader → Token → Option Reader
  | .value outer, token => begin? outer token
  | .firstElement outer, .closeArray => some (deliver (.array []) outer)
  | .firstElement outer, token => begin? (.element [] :: outer) token
  | .afterElement before outer, .comma => some (.value (.element before :: outer))
  | .afterElement before outer, .closeArray => some (deliver (.array before.reverse) outer)
  | .firstField outer, .closeObject => some (deliver (.object []) outer)
  | .firstField outer, token => key? [] outer token
  | .nextField before outer, token => key? before outer token
  | .afterKey before key outer, .colon => some (.value (.field before key :: outer))
  | .afterField before outer, .comma => some (.nextField before outer)
  | .afterField before outer, .closeObject => some (deliver (objectOf before) outer)
  | .afterElement .., _ | .afterKey .., _ | .afterField .., _ | .finished _, _ => none

end Reader

/-- The value that a text denotes, or nothing if the text is not JSON. -/
def read? (text : String) : Option Json := do
  let tokens ← Token.scan? text
  match ← tokens.foldlM Reader.step? (.value []) with
  | .finished v => some v
  | _ => none

end Json

end Spl
