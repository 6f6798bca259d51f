import Spl.Compile

/-!
# What the tool is asked to do

A command line gives flags, and values of options. They say which file holds the tree, where the
assembly goes and how to compile. How a list of arguments gives them is for the parser of the
command line to say: here only its result is read.

* `CommandLine.Matches`: what a command line gives.
* `Matches.options`, `Matches.logLevel?`: how to compile, and how much to log.
* `Invocation`: what the tool is asked to do.
-/

namespace Spl

/-- How much the tool is asked to log. -/
inductive LogLevel where
  | off
  | error
  | warn
  | info
  | debug
  | trace
  deriving DecidableEq

namespace LogLevel

/-- The levels and their names, from the least to the most. -/
def names : List (String × LogLevel) :=
  [("off", .off), ("error", .error), ("warn", .warn), ("info", .info), ("debug", .debug),
    ("trace", .trace)]

/-- The level of the given name. -/
def ofName? (name : String) : Option LogLevel := names.lookup name

end LogLevel

/-- What the tool is asked to do: the file that holds the tree, the file for the assembly, which is
standard output if there is none, and how to compile. -/
structure Invocation where
  input : String
  output : Option String := none
  options : Options := {}
  logLevel : Option LogLevel := none
  deriving DecidableEq

namespace CommandLine

/-- An option that takes a value. -/
inductive ValueOption where
  | input
  | output
  | entry
  | logLevel
  deriving DecidableEq

/-- An option that takes no value. -/
inductive Flag where
  | tables
  | semant
  | vars
  | leaf
  deriving DecidableEq

namespace ValueOption

/-- The options that take a value. -/
def all : List ValueOption := [.input, .output, .entry, .logLevel]

/-- The long name of an option, without the dashes. -/
def name : ValueOption → String
  | .input => "input"
  | .output => "output"
  | .entry => "entry"
  | .logLevel => "log-level"

/-- An option and its value, as messages show it. -/
def usage (o : ValueOption) : String := "--" ++ o.name ++ " <" ++ o.name ++ ">"

end ValueOption

namespace Flag

/-- The flags. -/
def all : List Flag := [.tables, .semant, .vars, .leaf]

/-- The name of a flag, without the dashes. -/
def name : Flag → String
  | .tables => "tables"
  | .semant => "semant"
  | .vars => "vars"
  | .leaf => "leaf"

end Flag

/-- What a command line gives: which flags are among its arguments, and the values of its options. An
option that is given more than once, or that is not given and has a default, has one value here. -/
structure Matches where
  isPresent : Flag → Bool
  value? : ValueOption → Option String

namespace Matches

/-- The last phase to run: the earliest that a flag asks for, and all if none does. -/
def lastPhase (g : Matches) : Phase :=
  if g.isPresent .tables then .declarations
  else if g.isPresent .semant then .bodies
  else if g.isPresent .vars then .frames
  else .code

/-- How to compile. -/
def options (g : Matches) : Options where
  entry := (g.value? .entry).getD ({} : Options).entry
  lastPhase := g.lastPhase
  leaves := g.isPresent .leaf

/-- How much to log. Without a level that has a name, nothing is set up to be logged. -/
def logLevel? (g : Matches) : Option LogLevel := (g.value? .logLevel).bind LogLevel.ofName?

/-- What the tool is asked to do. There must be an input. -/
def invocation? (g : Matches) : Option Invocation :=
  (g.value? .input).map fun input =>
    { input, output := g.value? .output, options := g.options, logLevel := g.logLevel? }

end Matches

end CommandLine

end Spl
