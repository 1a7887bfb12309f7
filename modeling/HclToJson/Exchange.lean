import HclToJson.Document
import HclToJson.Json.Printer

namespace HclToJson

def syntaxMessage : String := "--> HCL parse error"

def issuesMessage (issues : List Issue) : String :=
  ", ".intercalate (issues.map (·.message))

namespace Exchange

inductive Error
  | invalidSyntax
  | conversion (error : ConvertError)
  | issues (issues : List Issue)
  | fault (fault : Eval.Fault)

def Error.message : Error → String
  | invalidSyntax => "invalid HCL: " ++ syntaxMessage
  | conversion error => "unable to convert HCL to JSON: " ++ error.message
  | issues list => "invalid HCL: " ++ issuesMessage list
  | fault f => "panic HCL: " ++ f.message

def parse (text : String) : Except Error Document :=
  match Document.parse? text with
  | some document => return document
  | none => throw .invalidSyntax

def convertWith (text : String) (options : Options) : Except Error String := do
  let document ← parse text
  match document.convert options with
  | .ok object => return Json.compact (.object object)
  | .error error => throw (.conversion error)

def convert (text : String) (keepInterpolation : Bool) : Except Error String :=
  convertWith text { keepInterpolation }

/-- A result and an error, of which both can be there. -/
structure AttributesJson where
  json : Option String
  error : Option Error

def convertAttributes (text : String) : AttributesJson :=
  match parse text with
  | .error error => ⟨none, some error⟩
  | .ok document =>
      match document.convertAttributes {} with
      | .error fault => ⟨none, some (.fault fault)⟩
      | .ok (object, issues) =>
          ⟨some (Json.compact (.object object)),
            if issues.isEmpty then none else some (.issues issues)⟩

def validate (text : String) : Except Error Unit :=
  discard (parse text)

end Exchange

end HclToJson
