import HclToJson.Convert.Body
import HclToJson.Eval.Evaluate
import HclToJson.Grammar.Body

/-!
Documents and their two conversions: that of the whole body, all or nothing, and that of the root
attributes alone, where each one that fails is reported and left out.
-/

namespace HclToJson

structure Document where
  source : Bytes
  body : Body

inductive Issue
  | blockNotAllowed (ident : String)
  /-- The attribute has no value without variables and functions. -/
  | evaluation (key : String) (cause : Eval.Cause) (context : Expr)
  | conversion (key : String) (error : ConvertError)

def Issue.message : Issue → String
  | blockNotAllowed ident => s!"Blocks are not allowed: `{ident}`"
  | evaluation key cause context =>
      s!"Variables not allowed or value not static in `{key}`: {Eval.errorMessage cause context}"
  | conversion key error => s!"unable to convert `{key}`: {error.message}"

inductive Outcome
  | entry (key : String) (value : Value)
  | issue (issue : Issue)

namespace Outcome

def entries (outcomes : List Outcome) : List (String × Value) :=
  outcomes.filterMap fun
    | entry key value => some (key, value)
    | issue _ => none

def issues (outcomes : List Outcome) : List Issue :=
  outcomes.filterMap fun
    | entry .. => none
    | issue i => some i

end Outcome

namespace Document

def parse? (text : String) : Option Document :=
  let source := Text.encode text
  (Grammar.document? source).map (⟨source, ·⟩)

def convert (document : Document) (options : Options) : Except ConvertError Object :=
  Conversion.body ⟨document.source, options⟩ 0 document.body

/-- What becomes of a root structure: an attribute is evaluated first, and converted if it has a
value. A fault of the evaluation ends everything. -/
def outcome (c : Conversion) : Structure → Except Eval.Fault Outcome
  | .block ident _ _ => return .issue (.blockNotAllowed ident)
  | .attribute key e =>
      match Eval.evaluate e with
      | .error (.fault fault) => throw fault
      | .error (.error cause context) => return .issue (.evaluation key cause context)
      | .ok _ =>
          match c.expression 0 e with
          | .ok value => return .entry key value
          | .error error => return .issue (.conversion key error)

def outcomes (c : Conversion) (body : Body) : Except Eval.Fault (List Outcome) :=
  body.mapM (outcome c)

/-- The object of the root attributes that convert, and the issues of all other root structures. -/
def convertAttributes (document : Document) (options : Options) :
    Except Eval.Fault (Object × List Issue) := do
  let outcomes ← outcomes ⟨document.source, options⟩ document.body
  return (Entries.ofList (Outcome.entries outcomes), Outcome.issues outcomes)

end Document

end HclToJson
