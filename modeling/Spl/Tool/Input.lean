import Spl.Directory
import Spl.Tree.OfJson

/-!
# The input

The input is a file with the syntax tree of a program, in one of two formats. Its path tells which.

* `Format.ofPath`: the format of the file at a path.
* `InputError`: why there is no tree.
* `readTree`: the tree in a file, from its text.
-/

namespace Spl

/-- A format in which trees are written to files. -/
inductive Format where
  | json
  | yaml
  deriving DecidableEq

/-- The last name on a path. A path that ends in two dots has none. -/
def fileName? (path : String) : Option String :=
  match (pathNames path).getLast? with
  | some name => if name = ".." then none else some name
  | none => none

/-- What follows the last dot in a name. A dot at its beginning does not count. -/
def afterDot? (name : String) : Option String :=
  let backwards := name.toList.reverse
  match backwards.dropWhile (· ≠ '.') with
  | [] | [_] => none
  | _ :: _ :: _ => some (String.ofList (backwards.takeWhile (· ≠ '.')).reverse)

/-- What follows the last dot in the last name on a path. -/
def extension? (path : String) : Option String := (fileName? path).bind afterDot?

/-- The format of the file at a path. -/
def Format.ofPath (path : String) : Format :=
  if extension? path = some "yaml" ∨ extension? path = some "yml" then .yaml else .json

/-- A file that holds no tree, and what its decoder says about it. -/
structure Undecoded where
  path : String
  reason : String
  deriving DecidableEq

/-- Why there is no tree. -/
inductive InputError where
  | unreadable (path : String) (e : FileError)
  | notAProgram (file : Undecoded)
  deriving DecidableEq

namespace InputError

/-- The report of an error. -/
def text : InputError → String
  | .unreadable path e => "could not read " ++ path ++ ": " ++ e.text
  | .notAProgram file => "could not parse " ++ file.path ++ ": " ++ file.reason

end InputError

/-- The tree in a file, from its path and what reading the file gave. Its text is decoded as the
path asks for. -/
def readTree (decode : Format → String → Except String Program) (path : String)
    (input : Except FileError String) : Except InputError Program :=
  match input with
  | .error e => .error (.unreadable path e)
  | .ok text =>
    match decode (.ofPath path) text with
    | .error reason => .error (.notAProgram ⟨path, reason⟩)
    | .ok program => .ok program

/-- The tree that a text holds. Of the texts in the second format, only those are read that are in
the first one as well. -/
def decodeTree (_ : Format) (text : String) : Except String Program :=
  match Program.ofText? text with
  | some program => .ok program
  | none => .error "not the syntax tree of a program"

end Spl
