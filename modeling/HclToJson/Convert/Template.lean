import HclToJson.Convert.Basic

namespace HclToJson.Conversion

variable {δ : Type} [Counter δ]

/-- A choice as it is written into a string; an empty `else` branch is left out. -/
def choiceText (condition yes no : String) : String :=
  "%\x7bif " ++ condition ++ "\x7d" ++ yes ++ (if no.isEmpty then "" else "%\x7belse\x7d" ++ no) ++
    "%\x7bendif\x7d"

def repetitionText (loop : Loop) (collection body : String) : String :=
  "%\x7bfor " ++ (match loop.key with
    | some key => key ++ ", "
    | none => "") ++ loop.value ++ " in " ++ collection ++ "\x7d" ++ body ++ "%\x7bendfor\x7d"

/-- The text of an expression that stands for itself. -/
def verbatim (c : Conversion) (e : Expr) : String :=
  if e.isReference then c.referenceText e else c.sourceText e

mutual

def stringPart (c : Conversion) (depth : δ) : Expr → Except ConvertError String
  | .bool _ value => do
      discard (c.descend depth)
      return if value then "true" else "false"
  | .number _ value => do
      discard (c.descend depth)
      return value.text
  | .string _ value => do
      discard (c.descend depth)
      return value
  | .template _ parts => do template c (← c.descend depth) parts
  | .heredoc _ _ parts => do template c (← c.descend depth) parts
  | .conditional _ condition yes no => do
      let depth ← c.descend depth
      let yes ← stringPart c depth yes
      let no ← stringPart c depth no
      return choiceText (c.sourceText condition) yes no
  | e => do
      discard (c.descend depth)
      return c.verbatim e
  termination_by structural e => e

def template (c : Conversion) (depth : δ) : Template → Except ConvertError String
  | [] => return ""
  | .literal text :: rest => do
      return text ++ (← template c depth rest)
  | .interpolation _ _ e :: rest => do
      let text ← stringPart c depth e
      return text ++ (← template c depth rest)
  | .choice _ _ _ _ condition yes no :: rest => do
      let below ← c.descend depth
      let yes ← template c below yes
      let no ← optionalTemplate c below no
      return choiceText (c.sourceText condition) yes no ++ (← template c depth rest)
  | .repetition _ _ _ loop collection body :: rest => do
      let below ← c.descend depth
      let body ← template c below body
      return repetitionText loop (c.sourceText collection) body ++ (← template c depth rest)
  termination_by structural parts => parts

def optionalTemplate (c : Conversion) (depth : δ) :
    Option Template → Except ConvertError String
  | none => return ""
  | some parts => template c depth parts
  termination_by structural parts => parts

end

end HclToJson.Conversion
