import CanonicalCwl.CommandLine.Options

/-!
# Reading a Command Line

Arguments are read from left to right. The value of an option, and the input, are checked only
when the next option is met or at the end, so that an unknown argument right after a bad value
is the one that is reported.

- `CommandLine.parse` reads the arguments of the program.
-/

namespace CanonicalCwl.CommandLine

/-- What a value is given for. -/
inductive Slot where
  | input
  | option (o : Opt)
  deriving DecidableEq

/-- What has been read of the arguments of a command. -/
structure Reading where
  /-- The accepted values; a flag has the empty one. -/
  given : List (Slot × String)
  /-- What is not checked yet; an option that still waits for its value has none. -/
  pending : Option (Slot × Option String)
  /-- Whether the next argument is a value, unless it looks like an option. -/
  awaiting : Bool
  /-- Whether no further options can follow. -/
  trailing : Bool

namespace Reading

/-- Nothing has been read. -/
def empty : Reading := ⟨[], none, false, false⟩

/-- The number that decimal digits write, with an optional plus sign. -/
def number? (s : String) : Option Nat :=
  let digits := match s.toList with
    | '+' :: rest => rest
    | cs => cs
  if digits.isEmpty || !digits.all Char.isDigit then none else some (Json.digitsValue digits)

/-- The greatest depth that can be given. -/
def maxNumber : Nat := 2 ^ 64 - 1

/-- Check a value. -/
def check (slot : Slot) (value : String) : Except UsageError Unit :=
  match slot with
  | .input | .option .out => if value.isEmpty then .error .invalidValue else .ok ()
  | .option .maxDepth =>
      if (number? value).any (· ≤ maxNumber) then .ok () else .error .malformedValue
  | .option .target =>
      if (Emit.Target.ofName? value).isSome then .ok () else .error .invalidValue
  | .option _ => .ok ()

/-- The value that was accepted for a slot. -/
def value? (r : Reading) (slot : Slot) : Option String := r.given.lookup slot

/-- Whether a flag was given. -/
def hasFlag (r : Reading) (o : Opt) : Bool := (r.value? (.option o)).isSome

/-- Accept a value. Nothing can be given twice. -/
def accept (r : Reading) (slot : Slot) (value : String) : Except UsageError Reading := do
  if (r.value? slot).isSome then .error .repeatedOption
  else
    check slot value
    return { r with given := r.given ++ [(slot, value)] }

/-- Accept what is pending. -/
def settle (r : Reading) : Except UsageError Reading :=
  match r.pending with
  | none => .ok r
  | some (_, none) => .error .invalidValue
  | some (slot, some value) => ({ r with pending := none, awaiting := false }).accept slot value

/-- Begin to read a value that may follow. -/
def await (r : Reading) (o : Opt) : Except UsageError Reading := do
  let r ← r.settle
  return { r with pending := some (.option o, none), awaiting := true }

/-- Take an option, with the value that is attached to it. -/
def takeOption (r : Reading) (o : Opt) (attached : Option String) : Except UsageError Reading := do
  if o.takesValue then
    match attached with
    | some value => (← r.settle).accept (.option o) value
    | none => r.await o
  -- This comes before the check of what is pending, unlike the rest.
  else if attached.isSome then .error .surplusValue
  else
    let r ← r.settle
    match o with
    | .help => .error .helpRequested
    | .version => .error .versionRequested
    | o => r.accept (.option o) ""

/-- Take a long option: a name, and a value after an equals sign. -/
def takeLong (r : Reading) (options : List Opt) (body : List Char) : Except UsageError Reading :=
  let name := body.takeWhile (· != '=')
  let attached :=
    if name.length = body.length then none else some (String.ofList (body.drop (name.length + 1)))
  match options.find? (·.long.toList == name) with
  | some o => r.takeOption o attached
  | none => .error .unknownArgument

/-- The value that follows a short option in the same argument; an equals sign is optional. -/
def attachedValue : List Char → Option String
  | [] => none
  | '=' :: rest => some (String.ofList rest)
  | rest => some (String.ofList rest)

/-- Take short options that stand together; one with a value takes the rest as its value. -/
def takeShort (options : List Opt) : Reading → List Char → Except UsageError Reading
  | r, [] => .ok r
  | r, c :: rest =>
      match options.find? (·.short? == some c) with
      | none => .error .unknownArgument
      | some o =>
          if o.takesValue then r.takeOption o (attachedValue rest)
          else do takeShort options (← r.takeOption o none) rest

/-- Take the input of a command. -/
def takeInput (r : Reading) (value : String) : Except UsageError Reading := do
  -- There is one input; a second one is an argument that nothing takes.
  if (r.value? .input).isSome || r.pending.any (·.1 == .input) then .error .unknownArgument
  else
    let r ← r.settle
    return { r with pending := some (.input, some value) }

/-- Take an argument that is no option. -/
def takePlain (r : Reading) (arg : String) : Except UsageError Reading :=
  match r.awaiting && !r.trailing, r.pending with
  | true, some (slot, _) => .ok { r with pending := some (slot, some arg), awaiting := false }
  | _, _ => r.takeInput arg

/-- Take one argument of a command. -/
def take (options : List Opt) (r : Reading) (arg : String) : Except UsageError Reading :=
  if r.trailing then r.takeInput arg
  else
    match arg.toList with
    | ['-', '-'] => .ok { r with trailing := true }
    | '-' :: '-' :: body => r.takeLong options body
    | '-' :: c :: body => takeShort options r (c :: body)
    | _ => r.takePlain arg

end Reading

/-- The settings that the options of a command ask for. -/
def settingsOf (r : Reading) : Settings where
  resolve := !r.hasFlag .noResolve
  maxDepth :=
    ((r.value? (.option .maxDepth)).bind Reading.number?).getD Settings.defaultMaxDepth

/-- The command with what was read of its arguments. -/
def commandOf (name : CommandName) (r : Reading) (input : String) : Command :=
  let out := r.value? (.option .out)
  match name with
  | .canonicalize => .canonicalize input (settingsOf r) (r.hasFlag .json) out
  | .restore => .restore input out
  | .schema =>
      .schema input (((r.value? (.option .target)).bind Emit.Target.ofName?).getD .proto) out

/-- Read the arguments of a command. -/
def parseCommand (name : CommandName) (args : List String) : Except UsageError Command := do
  let r ← args.foldlM (Reading.take name.options) .empty
  let r ← r.settle
  match r.value? .input with
  | some input => return commandOf name r input
  | none => .error .missingArgument

/-- Read what help is asked about: nothing, a command, or help itself. -/
def parseHelp : List String → UsageError
  | [] => .helpRequested
  | [topic] =>
      if (CommandName.ofWord? topic).isSome || topic = "help" then .helpRequested
      else .unknownCommand
  | _ => .unknownCommand

/-- Read the arguments from the first one on; `r` is what was read of the options in front of
the command. -/
def parseFrom (r : Reading) : List String → Except UsageError Command
  | [] => .error (if r.given.isEmpty then .nothingGiven else .missingCommand)
  | arg :: rest =>
      let isWord := (CommandName.ofWord? arg).isSome || arg = "help"
      -- No command can follow the end of the options.
      if r.trailing then .error (if isWord then .unknownArgument else .unknownCommand)
      else
        match CommandName.ofWord? arg, arg.toList with
        | some name, _ => parseCommand name rest
        | none, '-' :: _ :: _ => do parseFrom (← r.take leadingOptions arg) rest
        | none, _ => .error (if arg = "help" then parseHelp rest else .unknownCommand)

/-- Read the arguments of the program. -/
def parse (args : List String) : Except UsageError Command := parseFrom .empty args

end CanonicalCwl.CommandLine
