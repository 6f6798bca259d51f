import Spl.CommandLine.Basic
import Spl.Frame.Diagram
import Spl.Tool.Input

/-!
# Runs in an environment

The tool compiles the tree in a file. It exits with 1 if there is no tree, with 2 or 3 if the
program has an error, with 4 if the assembly cannot be written, and with 101 after a fault. What it
does not do itself is done by its environment: arguments are parsed, texts are decoded and files are
read and written there.

* `Options.result`: what a compilation comes to, up to what is printed or written.
* `Environment`: what is done outside of the tool.
* `Environment.run`: a run of the tool.
-/

namespace Spl

/-- Why a text is not put out, and what standard output has taken of it by then. -/
structure OutputError where
  error : FileError
  printed : String := ""
  deriving DecidableEq

/-- How a run ends: the exit code, the text that it has printed to standard output, and what it says
to standard error. -/
structure Report where
  exit : UInt32 := 0
  output : String := ""
  errors : String := ""
  deriving DecidableEq

namespace Report

/-- A run that fails with a message. -/
def failure (exit : UInt32) (message : String) : Report := { exit, errors := message ++ "\n" }

/-- A run that ends in a fault. -/
def fault (f : Fault) : Report := failure 101 f.text

/-- A run that fails in one of the first two phases. -/
def semantic : Failure SemanticError → Report
  | .error e => failure 2 (e.message SemanticError.text)
  | .fault f => fault f

/-- A run that fails in one of the last two phases. -/
def codegen : Failure CodegenError → Report
  | .error e => failure 3 (e.message CodegenError.text)
  | .fault f => fault f

/-- A run that was to print the symbol table or the frames. -/
def ofPrinting (text : String) : Except OutputError Unit → Report
  | .ok () => { output := text }
  | .error e =>
    { failure 101 ("failed printing to stdout: " ++ e.error.text) with output := e.printed }

/-- A run that was to write the assembly, and to print `text` of it. -/
def ofWriting (text : String) : Except OutputError Unit → Report
  | .ok () => { output := text }
  | .error e =>
    { failure 4 ("Failed to write assembly: " ++ e.error.text) with output := e.printed }

end Report

/-- What a compilation comes to: the end of the run, or a text for standard output or for the file
of the assembly. -/
inductive Result where
  | report (r : Report)
  | dump (text : String)
  | assembly (text : String)
  deriving DecidableEq

namespace Options

/-- The last phase: the code is written. -/
def codeResult (t : SymbolTable) (program : Program) : Result :=
  match generate t program with
  | .error e => .report (.codegen e)
  | .ok lines => .assembly (assemblyText lines)

/-- The third phase, and what follows it. -/
def framesResult (o : Options) (t : SymbolTable) (program : Program) : Result :=
  match (allocate o.leaves program).run t with
  | .error f _ => .report (.fault f)
  | .ok () t =>
    if o.runs .code then codeResult t program
    else match frameDump t program with
    | .error f => .report (.fault f)
    | .ok text => .dump text

/-- The second phase, and what follows it. -/
def bodiesResult (o : Options) (t : SymbolTable) (program : Program) : Result :=
  let v := checkBodies t program
  match v.answer with
  | .error e => .report (.semantic e)
  | .ok () => if o.runs .frames then o.framesResult v.tree.1 v.tree.2 else .report {}

/-- What a compilation comes to: the first phase, and what follows it. -/
def result (o : Options) (program : Program) : Result :=
  let v := enterDeclarations o.entry program
  match v.answer with
  | .error e => .report (.semantic e)
  | .ok t => if o.runs .bodies then o.bodiesResult t v.tree else .dump (t.dump v.tree)

end Options

/-- What is done outside of the tool, with the effects of `m`. Files that are open are of type
`η`. -/
structure Environment (m : Type → Type) (η : Type) where
  /-- What arguments give, or how a run with them ends at once. -/
  parse : List String → Except Report CommandLine.Matches
  /-- Sets up what logs at a level, or says why it cannot. -/
  startLog : LogLevel → m (Except String Unit)
  /-- The tree that a text holds, or what is wrong with the text. -/
  decode : Format → String → Except String Program
  /-- The text of the file at a path. -/
  read : String → m (Except FileError String)
  /-- Opens a file to be written, which is empty then. -/
  create : String → m (Except FileError η)
  /-- Writes a text to a file that is open. -/
  write : η → String → m (Except FileError Unit)
  /-- Writes a text to standard output. -/
  print : String → m (Except OutputError Unit)

namespace Environment

variable {m : Type → Type} [Monad m] {η : Type}

/-- Writes the assembly to a file, or to standard output if there is no path. -/
def writeOutput (E : Environment m η) (output : Option String) (text : String) :
    m (Except OutputError Unit) :=
  match output with
  | none => E.print text
  | some path => do
    match ← E.create path with
    | .error e => return .error { error := e }
    | .ok file => return (← E.write file text).mapError fun e => { error := e }

/-- Ends a run with what its compilation comes to. -/
def finish (E : Environment m η) (output : Option String) : Result → m Report
  | .report r => return r
  | .dump text => return .ofPrinting text (← E.print text)
  | .assembly text =>
    return .ofWriting (if output.isNone then text else "") (← E.writeOutput output text)

/-- Does what the tool is asked to do. -/
def carryOut (E : Environment m η) (i : Invocation) : m Report := do
  match readTree E.decode i.input (← E.read i.input) with
  | .error e => return .failure 1 e.text
  | .ok program => E.finish i.output (i.options.result program)

/-- Sets up the log, if a level is given. -/
def startLog? (E : Environment m η) : Option LogLevel → m (Except String Unit)
  | none => return .ok ()
  | some level => E.startLog level

/-- Ends a run whose arguments are not carried out, which may have something to print. -/
def reject (E : Environment m η) (r : Report) : m Report := do
  match ← E.print r.output with
  | .ok () => return r
  | .error e => return .ofPrinting r.output (.error e)

/-- A run of the tool. -/
def run (E : Environment m η) (arguments : List String) : m Report :=
  match E.parse arguments with
  | .error r => E.reject r
  | .ok g => do
    match ← E.startLog? g.logLevel? with
    | .error e => return .failure 101 ("Failed to configure logger.: " ++ e)
    | .ok () =>
      match g.invocation? with
      | none => return .failure 101 "Expected an input syntax tree to compile"
      | some i => E.carryOut i

end Environment

end Spl
