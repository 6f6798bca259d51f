import Spl.Tool

/-!
# The program

The tool on the files of the machine on which it runs. It logs nothing.
-/

namespace Spl

/-- An error of the file system. -/
def FileError.ofError : IO.Error → FileError
  | .noFileOrDirectory .. => .notFound
  | .inappropriateType .. => .isADirectory
  | e => .other (toString e)

/-- What an action on files gives, or why it fails. -/
def attempt {α : Type} (action : IO α) : IO (Except FileError α) := do
  try
    return .ok (← action)
  catch e => return .error (.ofError e)

/-- The machine as the environment of the tool. -/
def machine : Environment IO IO.FS.Handle where
  parse := parseArguments
  startLog _ := return .ok ()
  decode := decodeTree
  read path := attempt (IO.FS.readFile path)
  create path := attempt (IO.FS.Handle.mk path .write)
  write file text := attempt do
    file.putStr text
    file.flush
  print text := do
    let printed ← attempt do
      IO.print text
      (← IO.getStdout).flush
    -- how much of the text got through is not known here
    return printed.mapError fun e => { error := e }

/-- A run of the tool on the machine. -/
def runTool (arguments : List String) : IO UInt32 := do
  let r ← machine.run arguments
  IO.eprint r.errors
  return r.exit

end Spl

/-- Compiles the tree that the arguments name. -/
def main (arguments : List String) : IO UInt32 := Spl.runTool arguments
