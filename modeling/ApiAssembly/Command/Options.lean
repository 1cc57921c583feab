import ApiAssembly.Project.Scan

/-!
# Command line

The options of the program and how they are read from its arguments.  A value stands in
the argument of its option or in the next one; two dashes alone end the options.  An
option is settled when the next one begins, so that a bad value counts only then.
-/

namespace ApiAssembly.Command

inductive Format where
  | yaml | json
deriving DecidableEq

def Format.name : Format → String
  | .yaml => "yaml"
  | .json => "json"

def Format.ofName? : String → Option Format
  | "yaml" => some .yaml
  | "json" => some .json
  | _ => none

/-- What the program is told on its command line. -/
structure Options where
  project : String
  format : Format := .yaml
  /-- The file for the document, which otherwise goes to standard output. -/
  output : Option String := none
  sourceExtensions : List String := Project.defaultExtensions
  models : Option String := none
  errors : Option String := none
  strict : Bool := false
  title : Option String := none
  apiVersion : Option String := none
  verbose : Bool := false
deriving DecidableEq

/-- Why arguments make no options. -/
inductive UsageError where
  | invalidValue
  | unknownArgument
  | repeated
  | missingProject
  | unneededValue
  | helpRequested
  | versionRequested
deriving DecidableEq

def UsageError.message : UsageError → String
  | .invalidValue => "an option has no value or a value that it does not take"
  | .unknownArgument => "unexpected argument"
  | .repeated => "an option is given more than once"
  | .missingProject => "the path of the project is missing"
  | .unneededValue => "a flag takes no value"
  | .helpRequested =>
    "usage: openapi-from-fragments PROJECT_PATH [-f yaml|json] [-o FILE] [-e EXT]... " ++
      "[-m FILE] [--errors FILE] [--strict] [--title TITLE] [--api-version VERSION] [-v]"
  | .versionRequested => "openapi-from-fragments 0.1.0"

/-- What takes a value. -/
inductive Setting where
  | project | format | output | sourceExtension | models | errors | title | apiVersion
deriving DecidableEq

inductive Flag where
  | strict | verbose
deriving DecidableEq

/-- What an option's name means. -/
inductive Meaning where
  | setting (setting : Setting)
  | flag (flag : Flag)
  | help
  | version
deriving DecidableEq

def longMeaning? : String → Option Meaning
  | "format" => some (.setting .format)
  | "output" => some (.setting .output)
  | "source-ext" => some (.setting .sourceExtension)
  | "models" => some (.setting .models)
  | "errors" => some (.setting .errors)
  | "title" => some (.setting .title)
  | "api-version" => some (.setting .apiVersion)
  | "strict" => some (.flag .strict)
  | "verbose" => some (.flag .verbose)
  | "help" => some .help
  | "version" => some .version
  | _ => none

def shortMeaning? : Char → Option Meaning
  | 'f' => some (.setting .format)
  | 'o' => some (.setting .output)
  | 'e' => some (.setting .sourceExtension)
  | 'm' => some (.setting .models)
  | 'v' => some (.flag .verbose)
  | 'h' => some .help
  | 'V' => some .version
  | _ => none

/-- Whether a setting may have a value: paths are not empty, and formats are known. -/
def Setting.accepts (value : String) : Setting → Bool
  | .project | .output | .models | .errors => value ≠ ""
  | .format => (Format.ofName? value).isSome
  | .sourceExtension | .title | .apiVersion => true

/-- What has been read of the arguments. -/
structure Reading where
  /-- The settled settings, in order. -/
  settled : List (Setting × String) := []
  flags : List Flag := []
  /-- The setting that came last, with its value if that has come. -/
  pending : Option (Setting × Option String) := none
  /-- Whether the options have ended. -/
  ended : Bool := false
deriving DecidableEq

namespace Reading

/-- Settle a setting.  Only source extensions may be given more than once. -/
def give (reading : Reading) (setting : Setting) (value : String) :
    Except UsageError Reading :=
  if setting ≠ .sourceExtension ∧ setting ∈ reading.settled.map Prod.fst then .error .repeated
  else if setting.accepts value then
    .ok { reading with settled := reading.settled ++ [(setting, value)] }
  else .error .invalidValue

def settle (reading : Reading) : Except UsageError Reading :=
  match reading.pending with
  | none => .ok reading
  | some (_, none) => .error .invalidValue
  | some (setting, some value) => { reading with pending := none }.give setting value

def raise (reading : Reading) (flag : Flag) : Except UsageError Reading := do
  let reading ← reading.settle
  if flag ∈ reading.flags then throw .repeated
  return { reading with flags := reading.flags ++ [flag] }

/-- Begin a setting whose value is in the next argument. -/
def await (reading : Reading) (setting : Setting) : Except UsageError Reading := do
  let reading ← reading.settle
  return { reading with pending := some (setting, none) }

/-- Settle a setting whose value is in the same argument. -/
def attach (reading : Reading) (setting : Setting) (value : String) :
    Except UsageError Reading := do
  (← reading.settle).give setting value

def request (reading : Reading) (error : UsageError) : Except UsageError Reading := do
  let _ ← reading.settle
  throw error

def readLong (reading : Reading) (argument : List Char) : Except UsageError Reading :=
  let (name, value) :=
    match Text.splitFirst '=' argument with
    | some (name, value) => (name, some (String.ofList value))
    | none => (argument, none)
  match longMeaning? (String.ofList name), value with
  | none, _ => .error .unknownArgument
  | some (.setting setting), some value => reading.attach setting value
  | some (.setting setting), none => reading.await setting
  | some _, some _ => .error .unneededValue
  | some (.flag flag), none => reading.raise flag
  | some .help, none => reading.request .helpRequested
  | some .version, none => reading.request .versionRequested

/-- Read the letters behind one dash.  What follows the letter of a setting is its value, with
or without an equals sign in front. -/
def readShort (reading : Reading) : List Char → Except UsageError Reading
  | [] => .ok reading
  | letter :: rest =>
    match shortMeaning? letter with
    | none => .error .unknownArgument
    | some (.flag flag) => do readShort (← reading.raise flag) rest
    | some .help => reading.request .helpRequested
    | some .version => reading.request .versionRequested
    | some (.setting setting) =>
      match rest with
      | [] => reading.await setting
      | '=' :: value => reading.attach setting (String.ofList value)
      | value => reading.attach setting (String.ofList value)

def hasProject (reading : Reading) : Bool :=
  (reading.settled.map Prod.fst ++ (reading.pending.map Prod.fst).toList).contains .project

/-- Read an argument that belongs to no option. -/
def readFree (reading : Reading) (argument : String) : Except UsageError Reading := do
  if reading.hasProject then throw .unknownArgument
  let reading ← reading.settle
  return { reading with pending := some (.project, some argument) }

/-- Read an argument that is no option: the value that is awaited, or the project. -/
def readPlain (reading : Reading) (argument : String) : Except UsageError Reading :=
  match reading.pending with
  | some (setting, none) => .ok { reading with pending := some (setting, some argument) }
  | _ => reading.readFree argument

def read (reading : Reading) (argument : String) : Except UsageError Reading :=
  if reading.ended then reading.readFree argument
  else match argument.toList with
    | ['-', '-'] => .ok { reading with ended := true }
    | '-' :: '-' :: option => reading.readLong option
    | ['-'] => reading.readPlain argument
    | '-' :: letters => reading.readShort letters
    | _ => reading.readPlain argument

def value? (reading : Reading) (setting : Setting) : Option String :=
  (reading.settled.find? fun entry => entry.1 = setting).map Prod.snd

/-- The values of a setting that may be given more than once. -/
def values (reading : Reading) (setting : Setting) : List String :=
  (reading.settled.filter fun entry => entry.1 = setting).map Prod.snd

def options? (reading : Reading) : Option Options :=
  (reading.value? .project).map fun project =>
    { project
      format := ((reading.value? .format).bind Format.ofName?).getD .yaml
      output := reading.value? .output
      sourceExtensions :=
        match reading.values .sourceExtension with
        | [] => Project.defaultExtensions
        | given => given
      models := reading.value? .models
      errors := reading.value? .errors
      strict := reading.flags.contains .strict
      title := reading.value? .title
      apiVersion := reading.value? .apiVersion
      verbose := reading.flags.contains .verbose }

end Reading

def Options.ofArguments (arguments : List String) : Except UsageError Options := do
  let reading ← arguments.foldlM Reading.read {}
  let reading ← reading.settle
  match reading.options? with
  | some options => return options
  | none => throw .missingProject

end ApiAssembly.Command
