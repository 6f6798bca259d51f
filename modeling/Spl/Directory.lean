/-!
# Directories

A `Directory` is a file system that holds texts only: files by their paths. A directory in it is
there exactly if it holds a file. The tool works in the root, which is its own parent, so that paths
from the root and paths from where the tool works lead to the same files. There are no links, and
names may be of any length.

* `Directory.locate`: what a path leads to.
* `Directory.read`: the text of a file.
* `Directory.create`: the directory in which a file is there and empty.
* `Directory.put`: the directory in which a file has a new text.
-/

namespace Spl

/-- Why a file cannot be read or written. -/
inductive FileError where
  | notFound
  | notADirectory
  | isADirectory
  | other (report : String)
  deriving DecidableEq

namespace FileError

/-- The report of an error. -/
def text : FileError → String
  | .notFound => "No such file or directory (os error 2)"
  | .notADirectory => "Not a directory (os error 20)"
  | .isADirectory => "Is a directory (os error 21)"
  | .other report => report

end FileError

/-- The names on a path. Empty names and dots stand for the directory in which they are looked
up. -/
def pathNames (path : String) : List String :=
  (path.splitOn "/").filter fun n => n ≠ "" ∧ n ≠ "."

/-- The files of a directory, by path, and their texts. -/
structure Directory where
  files : List (String × String)
  deriving DecidableEq

/-- What a path leads to. -/
inductive Target where
  | file (path : String)
  | directory
  | nothing (e : FileError)
  /-- No file is there, and one can be made. -/
  | free (path : String)
  deriving DecidableEq

namespace Directory

/-- True when a path ends in a directory. -/
def endsInDirectory (path : String) : Bool :=
  match (path.splitOn "/").getLast? with
  | some last => last = "" || last = "."
  | none => false

/-- True when the directory holds a file at or below the given names. -/
def hasBelow (d : Directory) (ns : List String) : Bool :=
  ns.isEmpty || d.files.any fun f => ns.isPrefixOf (pathNames f.1)

/-- What names lead to from a directory that is there, which is given by the names from the root to
it. Two dots lead back to the directory above. -/
def walk (d : Directory) (here : List String) : List String → Target
  | [] => .directory
  | n :: rest =>
    if n = ".." then d.walk here.dropLast rest
    else
      let place := here ++ [n]
      match d.files.find? fun f => pathNames f.1 = place with
      | some f => if rest.isEmpty then .file f.1 else .nothing .notADirectory
      | none =>
        if d.hasBelow place then d.walk place rest
        else if rest.isEmpty then .free ("/".intercalate place)
        else .nothing .notFound

/-- What a path leads to. An empty path leads nowhere, and a file is not at the end of a path that
ends in a directory. -/
def locate (d : Directory) (path : String) : Target :=
  if path = "" then .nothing .notFound
  else match d.walk [] (pathNames path) with
  | .file name => if endsInDirectory path then .nothing .notADirectory else .file name
  | .free name => if endsInDirectory path then .nothing .notFound else .free name
  | t => t

/-- The text of the file at a path. -/
def read (d : Directory) (path : String) : Except FileError String :=
  match d.locate path with
  | .file name =>
    match d.files.lookup name with
    | some text => .ok text
    | none => .error .notFound
  | .directory => .error .isADirectory
  | .nothing e => .error e
  | .free _ => .error .notFound

/-- A path without the slashes at its end, unless it is the root. -/
def withoutSlash (path : String) : String :=
  match path.toList.reverse.dropWhile (· = '/') with
  | [] => path
  | cs => String.ofList cs.reverse

/-- The directory in which the file of a name has a new text. -/
def put (d : Directory) (name text : String) : Directory :=
  ⟨d.files.map fun f => if f.1 = name then (name, text) else f⟩

/-- The name of a file that is there or is made, and the directory in which it is empty. A path that
ends in a slash names a directory, which is not made. -/
def create (d : Directory) (path : String) : Except FileError (String × Directory) :=
  match d.locate (withoutSlash path) with
  | .nothing e => .error e
  | .directory => .error .isADirectory
  | .file name =>
    if withoutSlash path ≠ path then .error .isADirectory else .ok (name, d.put name "")
  | .free name =>
    if withoutSlash path ≠ path then .error .isADirectory
    else .ok (name, ⟨d.files ++ [(name, "")]⟩)

end Directory

end Spl
