import Spl.CommandLine.Basic

/-!
# Arguments

The tool takes options with a value, which have a long name and perhaps a one-letter name, and
flags. A value follows its option as the next argument, or in the same argument, behind an equals
sign or directly behind the letter. There are no other arguments.

* `CommandLine.parse`: what a list of arguments gives.
* `CommandLine.read`: what it asks the tool to do.
* `Rejection`: why a list of arguments is not carried out.
-/

namespace Spl

namespace CommandLine

/-- What the tool can tell about itself. -/
inductive Information where
  | help
  | version
  deriving DecidableEq

/-- An option by its name. -/
inductive Known where
  | value (o : ValueOption)
  | flag (f : Flag)
  | information (i : Information)
  deriving DecidableEq

/-- Why a list of arguments is not carried out. -/
inductive Rejection where
  /-- The arguments ask for information only. -/
  | information (i : Information)
  /-- An argument is no option, or an option that does not exist. -/
  | unknownArgument (argument : String)
  /-- An option has no value. -/
  | missingValue (o : ValueOption)
  /-- The value of `--log-level` is not a level. -/
  | invalidLevel (value : String)
  /-- An option that must be given once at most is given more than once. -/
  | repeated (option : String)
  /-- The option `--input` is not given. -/
  | missingInput
  deriving DecidableEq

/-- The option of a long name. -/
def long? (name : String) : Option Known :=
  ((ValueOption.all.find? (·.name = name)).map .value).or <|
    ((Flag.all.find? (·.name = name)).map .flag).or <|
      if name = "help" then some (.information .help)
      else if name = "version" then some (.information .version)
      else none

/-- The option of a letter. -/
def letter? (c : Char) : Option Known :=
  if c = 'i' then some (.value .input)
  else if c = 'o' then some (.value .output)
  else if c = 'h' then some (.information .help)
  else if c = 'V' then some (.information .version)
  else none

/-- What has been read of a list of arguments: the options in the order in which they were given,
their values, the flags, and the option whose value must follow. -/
structure Given where
  options : List ValueOption := []
  values : List (ValueOption × String) := []
  flags : List Flag := []
  awaiting : Option ValueOption := none
  deriving DecidableEq

namespace Given

/-- Adds the value of an option. -/
def addValue (g : Given) (o : ValueOption) (value : String) : Given :=
  { g with values := g.values ++ [(o, value)], awaiting := none }

/-- Adds an option, perhaps with a value in the same argument. Equals signs before the value do not
belong to it. -/
def addOption (g : Given) (o : ValueOption) (attached : Option (List Char)) : Given :=
  let g := { g with options := g.options ++ [o] }
  match attached with
  | none => { g with awaiting := some o }
  | some value => g.addValue o (String.ofList (value.dropWhile (· = '=')))

/-- Adds a flag. A value in the same argument is ignored. -/
def addFlag (g : Given) (f : Flag) : Given :=
  { g with flags := g.flags ++ [f], awaiting := none }

/-- Adds an option of any kind. -/
def addKnown (g : Given) (attached : Option (List Char)) : Known → Except Rejection Given
  | .value o => .ok (g.addOption o attached)
  | .flag f => .ok (g.addFlag f)
  | .information i => .error (.information i)

/-- Reads an argument that begins with two dashes. -/
def addLong (g : Given) (argument : List Char) : Except Rejection Given :=
  let body := argument.dropWhile (· = '-')
  let name := String.ofList (body.takeWhile (· ≠ '='))
  let attached :=
    match body.dropWhile (· ≠ '=') with
    | [] => none
    | _ :: value => some value
  match long? name with
  | some known => g.addKnown attached known
  | none => .error (.unknownArgument ("--" ++ name))

/-- Reads an argument that begins with one dash. What follows the letter is its value. -/
def addLetter (g : Given) (argument : List Char) : Except Rejection Given :=
  match argument.dropWhile (· = '-') with
  | [] => .error (.unknownArgument (String.ofList argument))
  | c :: rest =>
    match letter? c with
    | some known => g.addKnown (if rest.isEmpty then none else some rest) known
    | none => .error (.unknownArgument ("-" ++ String.singleton c))

/-- Reads an argument that is no option: the value of the option before it. -/
def addPlain (g : Given) (argument : String) : Except Rejection Given :=
  match g.awaiting with
  | some o => .ok (g.addValue o argument)
  | none => .error (.unknownArgument argument)

/-- Reads arguments in order. Behind two dashes alone, no argument is an option. -/
def add (g : Given) : List String → Except Rejection Given
  | [] => .ok g
  | argument :: rest =>
    match argument.toList, rest with
    | ['-', '-'], [] => .ok g
    | ['-', '-'], next :: _ => .error (.unknownArgument next)
    | '-' :: '-' :: cs, _ => do (← g.addLong ('-' :: '-' :: cs)).add rest
    | '-' :: c :: cs, _ => do (← g.addLetter ('-' :: c :: cs)).add rest
    | _, _ => do (← g.addPlain argument).add rest

/-- The values of an option. The entry point has the value `main` if none is given. -/
def valuesOf (g : Given) (o : ValueOption) : List String :=
  let values := (g.values.filter (·.1 = o)).map (·.2)
  if o = .entry ∧ values.isEmpty then ["main"] else values

/-- Checks that the input is given. -/
def checkInput (g : Given) : Except Rejection Unit :=
  if ValueOption.input ∈ g.options then .ok () else .error .missingInput

/-- Checks that an option that is given has a value. -/
def checkValue (g : Given) (o : ValueOption) : Except Rejection Unit :=
  if (g.valuesOf o).isEmpty then .error (.missingValue o) else .ok ()

/-- Checks the values of an option. -/
def checkLevels (g : Given) (o : ValueOption) : Except Rejection Unit :=
  if o ≠ .logLevel then .ok ()
  else match (g.valuesOf o).find? fun value => (LogLevel.ofName? value).isNone with
    | some value => .error (.invalidLevel value)
    | none => .ok ()

/-- Checks an option if it is given: that it has a value, the right one, and is given once. -/
def checkOption (g : Given) (o : ValueOption) : Except Rejection Unit :=
  if o ∉ g.options then .ok ()
  else do
    g.checkValue o
    g.checkLevels o
    if 1 < g.options.count o then throw (.repeated o.usage)

/-- Checks that a flag is given once at most. -/
def checkFlag (g : Given) (f : Flag) : Except Rejection Unit :=
  if 1 < g.flags.count f then .error (.repeated ("--" ++ f.name)) else .ok ()

/-- Checks what has been given. -/
def check (g : Given) : Except Rejection Unit := do
  g.checkInput
  if let some o := g.awaiting then g.checkValue o
  ValueOption.all.forM g.checkOption
  Flag.all.forM g.checkFlag

/-- What has been given, to be looked up by the flag or the option. -/
def found (g : Given) : Matches where
  isPresent f := f ∈ g.flags
  value? o := (g.valuesOf o).head?

end Given

/-- What a list of arguments gives. -/
def parse (arguments : List String) : Except Rejection Matches := do
  let g ← Given.add {} arguments
  g.check
  return g.found

/-- What a list of arguments asks the tool to do. -/
def read (arguments : List String) : Except Rejection Invocation := do
  match (← parse arguments).invocation? with
  | some i => return i
  | none => throw .missingInput

end CommandLine

end Spl
