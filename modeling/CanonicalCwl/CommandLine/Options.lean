import CanonicalCwl.Emit.Target
import CanonicalCwl.Loader.Load

/-!
# Commands and Options

The three commands of the program, the options each of them takes, and what can be wrong with a
command line.
-/

namespace CanonicalCwl.CommandLine

/-- The name of the program. -/
def programName : String := "cwl-lite"

/-- The version of the program. -/
def version : String := "0.1.0"

/-- Why a command line is not carried out. The last three are requests for information. -/
inductive UsageError where
  | missingArgument
  | missingCommand
  | unknownCommand
  | unknownArgument
  /-- A value is missing, empty, or not one of the possible ones. -/
  | invalidValue
  /-- A value is not of the right form. -/
  | malformedValue
  /-- A flag has a value. -/
  | surplusValue
  /-- An option is given twice. -/
  | repeatedOption
  | nothingGiven
  | helpRequested
  | versionRequested
  deriving DecidableEq, Repr

/-- The exit code that goes with a usage error. -/
def UsageError.exitCode : UsageError → Nat
  | helpRequested | versionRequested => 0
  | _ => 2

/-- An option of some command. -/
inductive Opt where
  | verbose
  | help
  | version
  | noResolve
  | maxDepth
  | json
  | out
  | target
  deriving DecidableEq, Repr

namespace Opt

/-- The long name of an option. -/
def long : Opt → String
  | verbose => "verbose"
  | help => "help"
  | version => "version"
  | noResolve => "no-resolve"
  | maxDepth => "max-depth"
  | json => "json"
  | out => "out"
  | target => "target"

/-- The short name of an option. -/
def short? : Opt → Option Char
  | verbose => some 'v'
  | help => some 'h'
  | version => some 'V'
  | out => some 'o'
  | _ => none

/-- Whether an option takes a value. -/
def takesValue : Opt → Bool
  | maxDepth | out | target => true
  | _ => false

end Opt

/-- A command. -/
inductive CommandName where
  /-- From a raw document to its canonical form. -/
  | canonicalize
  /-- From a canonical document to a raw one. -/
  | restore
  /-- From a schema description to generated source. -/
  | schema
  deriving DecidableEq, Repr

namespace CommandName

/-- The word for a command. -/
def word : CommandName → String
  | canonicalize => "cwl2proto"
  | restore => "proto2cwl"
  | schema => "schema"

/-- The command that a word names. -/
def ofWord? : String → Option CommandName
  | "cwl2proto" => some canonicalize
  | "proto2cwl" => some restore
  | "schema" => some schema
  | _ => none

/-- The options of a command. -/
def options : CommandName → List Opt
  | canonicalize => [.noResolve, .maxDepth, .json, .out, .verbose, .help]
  | restore => [.out, .verbose, .help]
  | schema => [.target, .out, .verbose, .help]

end CommandName

/-- The options in front of a command. -/
def leadingOptions : List Opt := [.verbose, .help, .version]

/-- A command with its arguments. -/
inductive Command where
  | canonicalize (input : String) (settings : Settings) (json : Bool) (out : Option String)
  | restore (input : String) (out : Option String)
  | schema (input : String) (target : Emit.Target) (out : Option String)
  deriving DecidableEq

end CanonicalCwl.CommandLine
