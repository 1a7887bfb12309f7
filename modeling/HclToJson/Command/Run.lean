import HclToJson.Command.Arguments
import HclToJson.Exchange
import HclToJson.Yaml.Printer

namespace HclToJson

structure Report where
  exitCode : Nat
  stdout : String
  stderr : String

namespace Report

def success (stdout : String) : Report := ⟨0, stdout, ""⟩

def failure (messages : List String) : Report :=
  ⟨1, "", String.join (messages.map (· ++ "\n"))⟩

end Report

namespace Command

abbrev Input := Except String String

def missingFile : String := "No such file or directory (os error 2)"

def output (format : Format) (object : Object) : String :=
  match format with
  | .json => Json.pretty (.object object) ++ "\n"
  | .yaml => Yaml.print (.object object)

/-- The document that an input is, or the messages that tell why there is none. -/
def load (file : Option String) (input : Input) : Except (List String) Document :=
  match input, file with
  | .error reason, some _ => throw ["IO error", reason]
  | .error reason, none => throw [reason]
  | .ok text, file =>
      match Document.parse? text, file with
      | some document, _ => return document
      | none, some _ => throw ["Unable to parse hcl file", syntaxMessage]
      | none, none => throw [syntaxMessage]

def runConvert (file : Option String) (format : Format) (options : Options) (input : Input) :
    Report :=
  match load file input with
  | .error messages => .failure messages
  | .ok document =>
      match document.convert options with
      | .ok object => .success (output format object)
      | .error error => .failure [error.message]

/-- Prints the object of the root attributes that convert, and a line for each issue. -/
def runAttributes (file : Option String) (format : Format) (input : Input) : Report :=
  match load file input with
  | .error messages => .failure messages
  | .ok document =>
      match document.convertAttributes {} with
      | .error fault => { Report.failure [fault.message] with exitCode := 101 }
      | .ok (object, issues) =>
          if issues.isEmpty then .success (output format object)
          else
            let messages := issues.map (·.message) ++ [s!"{issues.length} attribute(s) skipped"]
            { Report.failure messages with stdout := output format object }

def runValidate (input : Input) : Report :=
  match input with
  | .error reason => .failure [reason]
  | .ok text =>
      match Exchange.validate text with
      | .ok _ => .success "valid HCL\n"
      | .error error => .failure [error.message]

def run (input : Input) : Command → Report
  | convert file format options => runConvert file format options input
  | attributes file format => runAttributes file format input
  | validate _ => runValidate input

def usageText : String :=
  "Usage: hcl-to-json <COMMAND>\n\nCommands:\n" ++
  "  convert [-F json|yaml] [-k] [--max-depth N] [FILE]   Convert a whole document\n" ++
  "  attributes [-F json|yaml] [FILE]                     Convert the root attributes\n" ++
  "  validate [FILE]                                      Check the syntax\n"

def refusalReport : Refusal → Report
  | .help => .success usageText
  | .usage => ⟨2, "", usageText⟩

/-- A call of the program, where `read` gets the input that a command is about. -/
def call {m : Type → Type} [Monad m] (read : Command → m Input) (arguments : List String) :
    m Report :=
  match ofArguments arguments with
  | .error refusal => return refusalReport refusal
  | .ok command => return command.run (← read command)

end Command

end HclToJson
