import Spl.CommandLine.Arguments
import Spl.Text

/-!
# What the command line says

The texts with which the tool answers a command line that it does not carry out.

* `Rejection.text`: the answer.
* `Rejection.isError`: whether the answer is an error, or information that was asked for.
-/

namespace Spl

namespace CommandLine

/-- The name and the version of the tool. -/
def versionText : String := "SPL Compiler 0.1.0\n"

/-- The usage of the tool. -/
def usageText : String := "USAGE:\n    splc [FLAGS] [OPTIONS] --input <input>\n"

/-- The help of the tool. -/
def helpText : String :=
  versionText ++ "Compiles the syntax tree of an SPL program into ECO32 assembly\n\n" ++
    usageText ++
    unlines
      [ "",
        "FLAGS:",
        "    -h, --help       Prints help information",
        "        --leaf       Procedures that make no calls get a frame without saved linkage",
        "        --semant     Stop after checking the procedure bodies",
        "        --tables     Stop after building the symbol table and print it",
        "        --vars       Stop after allocating variables and print the stack layouts",
        "    -V, --version    Prints version information",
        "",
        "OPTIONS:",
        "        --entry <entry>            Name of the procedure where the program starts " ++
          "[default: main]",
        "    -i, --input <input>            Syntax tree to compile, as a .json or .yaml file",
        "        --log-level <log-level>    Logs the work of each pass to stderr at the given " ++
          "level [possible values: off, error,",
        "                                   warn, info, debug, trace]",
        "    -o, --output <output>          File the assembly is written to.  Defaults to stdout" ]

namespace Rejection

/-- True of rejections that are errors, false of answers to a question. -/
def isError : Rejection → Bool
  | .information _ => false
  | .unknownArgument _ | .missingValue _ | .invalidLevel _ | .repeated _ | .missingInput => true

/-- An error, the usage, and a hint at the help. -/
def errorText (error : String) : String :=
  "error: " ++ error ++ "\n\n" ++ usageText ++ "\nFor more information try --help\n"

/-- The answer to a command line that is not carried out. -/
def text : Rejection → String
  | .information .help => helpText
  | .information .version => versionText
  | .unknownArgument argument =>
    errorText ("Found argument '" ++ argument ++
      "' which wasn't expected, or isn't valid in this context")
  | .missingValue o =>
    errorText ("The argument '" ++ o.usage ++ "' requires a value but none was supplied")
  | .invalidLevel value =>
    errorText ("'" ++ value ++ "' isn't a valid value for '" ++ ValueOption.logLevel.usage ++
      "'\n\t[possible values: debug, error, info, off, trace, warn]\n")
  | .repeated option =>
    errorText ("The argument '" ++ option ++
      "' was provided more than once, but cannot be used multiple times")
  | .missingInput =>
    errorText ("The following required arguments were not provided:\n    " ++
      ValueOption.input.usage)

end Rejection

end CommandLine

end Spl
