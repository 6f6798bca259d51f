import Spl.CommandLine.Text
import Spl.Tool.Environment

/-!
# The tool

The tool with the parser of arguments and the decoder of this library, on the files of a directory.

* `readProgram`: the tree in a file.
* `Directory.environment`: a directory as the environment of the tool.
* `run`: a run of the tool in a directory.
-/

namespace Spl

/-- The tree in a file, from its path and what reading the file gave. -/
def readProgram (path : String) (input : Except FileError String) : Except InputError Program :=
  readTree decodeTree path input

/-- A run whose arguments are not carried out. -/
def Report.rejection (r : CommandLine.Rejection) : Report :=
  if r.isError then { exit := 1, errors := r.text } else { output := r.text }

/-- What arguments give, or how a run with them ends at once. -/
def parseArguments (arguments : List String) : Except Report CommandLine.Matches :=
  (CommandLine.parse arguments).mapError .rejection

/-- A directory as the environment of the tool. Standard output takes what it is given, and nothing
is logged. -/
def Directory.environment : Environment (StateM Directory) String where
  parse := parseArguments
  startLog _ := return .ok ()
  decode := decodeTree
  read path := return (← get).read path
  create path := fun d =>
    match d.create path with
    | .error e => (.error e, d)
    | .ok (name, d) => (.ok name, d)
  write name text := fun d => (.ok (), d.put name text)
  print _ := return .ok ()

/-- A run of the tool in a directory: how it ends, and the directory afterwards. -/
def run (arguments : List String) (d : Directory) : Report × Directory :=
  (Directory.environment.run arguments).run d

end Spl
