import HclToJson.Convert.Basic
import HclToJson.Decimal.Reading

namespace HclToJson

inductive Format
  | json
  | yaml
  deriving DecidableEq

inductive Command
  | convert (file : Option String) (format : Format) (options : Options)
  | attributes (file : Option String) (format : Format)
  | validate (file : Option String)

def Command.file : Command → Option String
  | convert file _ _ | attributes file _ | validate file => file

namespace Command

inductive Refusal
  | usage
  | help
  deriving DecidableEq

/-- The options that a subcommand has, besides help. -/
structure Accepted where
  format : Bool
  conversion : Bool

structure Given where
  format : Option Format := none
  keepInterpolation : Bool := false
  maxDepth : Option Nat := none
  file : Option String := none

def format? : List Char → Option Format
  | ['j', 's', 'o', 'n'] => some .json
  | ['y', 'a', 'm', 'l'] => some .yaml
  | _ => none

def natural? (text : List Char) : Option Nat :=
  let digits :=
    match text with
    | '+' :: rest => rest
    | rest => rest
  let value := Decimal.readNat digits
  if !digits.isEmpty && digits.all Char.isDigit && value < 0x1_0000_0000_0000_0000 then some value
  else none

inductive Setting
  | format
  | maxDepth

/-- Sets an option, which may be given once and has to be one of the subcommand's. -/
def set (accepted : Accepted) (given : Given) (setting : Setting) (value : List Char) :
    Except Refusal Given :=
  match setting with
  | .format =>
      match format? value with
      | some format =>
          if accepted.format && given.format.isNone then return { given with format := some format }
          else throw .usage
      | none => throw .usage
  | .maxDepth =>
      match natural? value with
      | some limit =>
          if accepted.conversion && given.maxDepth.isNone then
            return { given with maxDepth := some limit }
          else throw .usage
      | none => throw .usage

def setKeep (accepted : Accepted) (given : Given) : Except Refusal Given :=
  if accepted.conversion && !given.keepInterpolation then
    return { given with keepInterpolation := true }
  else throw .usage

def setFile (given : Given) (file : String) : Except Refusal Given :=
  if given.file.isNone && !file.isEmpty then return { given with file := some file }
  else throw .usage

/-- What an argument says by itself: the options as they are then, and one that still lacks its
value. -/
abbrev Step := Given × Option Setting

/-- Reads a cluster of short options. Behind one that has a value, the rest of the cluster is it. -/
def readShort (accepted : Accepted) (given : Given) : List Char → Except Refusal Step
  | [] => return (given, none)
  | 'h' :: _ => throw .help
  | 'k' :: rest => do readShort accepted (← setKeep accepted given) rest
  | ['F'] => return (given, some .format)
  | 'F' :: '=' :: value => do return (← set accepted given .format value, none)
  | 'F' :: value => do return (← set accepted given .format value, none)
  | _ => throw .usage

def readLong (accepted : Accepted) (given : Given) (text : List Char) : Except Refusal Step :=
  let name := String.ofList (text.takeWhile (· ≠ '='))
  let value : Option (List Char) :=
    match text.dropWhile (· ≠ '=') with
    | [] => none
    | _ :: value => some value
  let setting (setting : Setting) : Except Refusal Step :=
    match value with
    | some value => do return (← set accepted given setting value, none)
    | none => return (given, some setting)
  if name = "output-format" then setting .format
  else if name = "max-depth" then setting .maxDepth
  else if name = "keep-interpolation" ∧ value.isNone then do
    return (← setKeep accepted given, none)
  else if name = "help" ∧ value.isNone then throw .help
  else throw .usage

def readArgument (accepted : Accepted) (given : Given) (argument : String) : Except Refusal Step :=
  match argument.toList with
  | '-' :: '-' :: text => readLong accepted given text
  | '-' :: c :: text => readShort accepted given (c :: text)
  | _ => do return (← setFile given argument, none)

/-- Reads the arguments of a subcommand. All that is behind `--` is the file. -/
def readArguments (accepted : Accepted) : Given → List String → Except Refusal Given
  | given, [] => return given
  | given, argument :: rest =>
      if argument = "--" then rest.foldlM setFile given
      else do
        let (given, lacking) ← readArgument accepted given argument
        match lacking with
        | none => readArguments accepted given rest
        | some setting =>
            match rest with
            | [] => throw .usage
            | value :: rest =>
                if value.startsWith "-" then throw .usage
                else readArguments accepted (← set accepted given setting value.toList) rest

def subcommands : List String := ["convert", "attributes", "tfvars", "validate", "help"]

def ofArguments : List String → Except Refusal Command
  | [] => throw .usage
  | name :: rest =>
      if name = "convert" then do
        let given ← readArguments ⟨true, true⟩ {} rest
        let options : Options := ⟨given.keepInterpolation, given.maxDepth.getD defaultMaxDepth⟩
        return convert given.file (given.format.getD .json) options
      else if name = "attributes" ∨ name = "tfvars" then do
        let given ← readArguments ⟨true, false⟩ {} rest
        return attributes given.file (given.format.getD .json)
      else if name = "validate" then do
        let given ← readArguments ⟨false, false⟩ {} rest
        return validate given.file
      else if name = "help" then
        if rest.length ≤ 1 ∧ rest.all subcommands.contains then throw .help else throw .usage
      else if name = "--help" ∨ name = "--version" then throw .help
      else if name.startsWith "-h" ∨ name.startsWith "-V" then throw .help
      else throw .usage

end Command

end HclToJson
