/-
The arguments of the command.

Options may stand before and after the one positional argument. A long
option takes its value behind an equals sign or as the next argument; the
short one also directly behind its letter. After `--` every argument is
positional. Arguments are read left to right, and the first thing wrong
decides; asking for the version or for help ends the reading.
-/
import Bytewise.Property

namespace Bytewise.CommandLine

/-- Which text a run produces. -/
inductive Emit where
  | source
  | header
  | buildInfo
deriving DecidableEq, Repr, Inhabited

/-- The text called `name`. -/
def Emit.ofName? : String → Option Emit
  | "c" => some .source
  | "header" => some .header
  | "build-info" => some .buildInfo
  | _ => none

/-- An option that takes a value. -/
inductive Choice where
  | output
  | emit
  | config
  | symbolPrefix
  | debugHook
  | headerName
deriving DecidableEq, Repr

/-- The long name of an option. -/
def Choice.name : Choice → String
  | output => "output"
  | emit => "emit"
  | config => "config"
  | symbolPrefix => "prefix"
  | debugHook => "debug-hook"
  | headerName => "header-name"

/-- Every option that takes a value. -/
def Choice.all : List Choice :=
  [output, emit, config, symbolPrefix, debugHook, headerName]

/-- What a run is asked to do. -/
structure Settings where
  graph : String
  output : Option String := none
  emit : Emit := .source
  config : Option String := none
  symbolPrefix : Option String := none
  debugHook : Option String := none
  headerName : Option String := none
deriving DecidableEq, Repr, Inhabited

/-- What the arguments ask for. -/
inductive Request where
  | version
  | help
  | compile (settings : Settings)
deriving DecidableEq, Repr

/-- What is wrong with the arguments. -/
inductive UsageError where
  | unknownOption (arg : String)
  | missingValue (option : String)
  | unexpectedValue (option : String)
  | invalidValue (option value : String)
  | repeated (option : String)
  | extraArgument (arg : String)
  | missingGraph
deriving DecidableEq, Repr

/-- The wording of a usage error. -/
def UsageError.message : UsageError → String
  | unknownOption arg => "unexpected argument '" ++ arg ++ "' found"
  | missingValue option =>
    "a value is required for '--" ++ option ++ "' but none was supplied"
  | unexpectedValue option => "unexpected value for '--" ++ option ++ "' found"
  | invalidValue option value =>
    "invalid value '" ++ value ++ "' for '" ++ option ++ "'"
  | repeated option =>
    "the argument '--" ++ option ++ "' cannot be used multiple times"
  | extraArgument arg => "unexpected argument '" ++ arg ++ "' found"
  | missingGraph =>
    "the following required arguments were not provided: <GRAPH>"

-- ====================================================== reading

/-- What has been read of the arguments. -/
structure Parts where
  graph : Option String := none
  values : List (Choice × String) := []
  verbose : Bool := false

namespace Parts

/-- The value of an option. -/
def value? (parts : Parts) (choice : Choice) : Option String :=
  parts.values.lookup choice

/-- Whether an option can have a value: names of files are not empty. -/
def isValid (choice : Choice) (value : String) : Bool :=
  match choice with
  | .output | .config => !value.isEmpty
  | .emit => (Emit.ofName? value).isSome
  | _ => true

/-- Takes the value of an option, once. -/
def setValue (parts : Parts) (choice : Choice) (value : String) :
    Except UsageError Parts :=
  if (parts.value? choice).isSome then .error (.repeated choice.name)
  else if isValid choice value then
    .ok { parts with values := (choice, value) :: parts.values }
  else .error (.invalidValue choice.name value)

/-- Takes a flag, once. -/
def setVerbose (parts : Parts) : Except UsageError Parts :=
  if parts.verbose then .error (.repeated "verbose")
  else .ok { parts with verbose := true }

/-- Takes the positional argument. -/
def setGraph (parts : Parts) (arg : String) : Except UsageError Parts :=
  if parts.graph.isSome then .error (.extraArgument arg)
  else if arg.isEmpty then .error (.invalidValue "<GRAPH>" arg)
  else .ok { parts with graph := some arg }

/-- What all arguments ask for. -/
def finish (parts : Parts) : Except UsageError Request :=
  match parts.graph with
  | none => .error .missingGraph
  | some graph => .ok (.compile {
      graph
      output := parts.value? .output
      emit := ((parts.value? .emit).bind Emit.ofName?).getD .source
      config := parts.value? .config
      symbolPrefix := parts.value? .symbolPrefix
      debugHook := parts.value? .debugHook
      headerName := parts.value? .headerName })

end Parts

/-- An argument by itself. -/
inductive Argument where
  /-- The mark after which all is positional. -/
  | escape
  /-- A long option, with what stands behind an equals sign. -/
  | long (name : String) (value : Option String)
  /-- Short options and what follows them. -/
  | short (letters : List Char)
  | positional (text : String)
deriving DecidableEq, Repr

/-- An argument by its first characters. A lone dash is positional. -/
def Argument.ofString (arg : String) : Argument :=
  match arg.toList with
  | ['-', '-'] => escape
  | '-' :: '-' :: rest =>
    let name := rest.takeWhile (· != '=')
    match rest.dropWhile (· != '=') with
    | [] => long (String.ofList name) none
    | _ :: value => long (String.ofList name) (some (String.ofList value))
  | '-' :: c :: rest => short (c :: rest)
  | _ => positional arg

/-- What the letters behind a dash mean. -/
inductive ShortMeaning where
  | version
  | help
  /-- The output option, with what stands directly behind it. -/
  | output (value : Option String)
  | unknown
deriving DecidableEq, Repr

/-- The meaning of the letters behind a dash. Behind the output option stands
its value. -/
def ShortMeaning.ofLetters : List Char → ShortMeaning
  | 'V' :: _ => version
  | 'h' :: _ => help
  | ['o'] => output none
  | 'o' :: '=' :: value => output (some (String.ofList value))
  | 'o' :: value => output (some (String.ofList value))
  | _ => unknown

/-- Reads arguments all of which are positional. -/
def readPositional (parts : Parts) (args : List String) :
    Except UsageError Request := do
  (← args.foldlM Parts.setGraph parts).finish

/-- Reads arguments left to right. -/
def read (parts : Parts) : List String → Except UsageError Request
  | [] => parts.finish
  | arg :: rest =>
    match Argument.ofString arg with
    | .escape => readPositional parts rest
    | .positional text => do read (← parts.setGraph text) rest
    | .short letters =>
      match ShortMeaning.ofLetters letters with
      | .version => .ok .version
      | .help => .ok .help
      | .unknown => .error (.unknownOption arg)
      | .output (some value) => do read (← parts.setValue .output value) rest
      | .output none => separate .output rest
    | .long name value =>
      match Choice.all.find? (·.name == name), value with
      | some choice, some value => do read (← parts.setValue choice value) rest
      | some choice, none => separate choice rest
      | none, value =>
        if name == "verbose" || name == "version" || name == "help" then
          if value.isSome then .error (.unexpectedValue name)
          else if name == "version" then .ok .version
          else if name == "help" then .ok .help
          else do read (← parts.setVerbose) rest
        else .error (.unknownOption arg)
where
  /-- Takes the value of an option from the next argument, which must be
  positional. -/
  separate (choice : Choice) : List String → Except UsageError Request
    | [] => .error (.missingValue choice.name)
    | arg :: rest =>
      match Argument.ofString arg with
      | .positional text => do read (← parts.setValue choice text) rest
      | _ => .error (.missingValue choice.name)

/-- What the arguments ask for. -/
def Request.ofArguments (args : List String) : Except UsageError Request :=
  read {} args

end Bytewise.CommandLine
