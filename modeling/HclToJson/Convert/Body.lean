import HclToJson.Convert.Expression
import HclToJson.Convert.Graft

namespace HclToJson.Conversion

variable {δ : Type} [Counter δ]

def attributes (c : Conversion) (depth : δ) : Body → Except ConvertError (List (String × Value))
  | [] => return []
  | .attribute key value :: rest => do
      let value ← c.expression depth value
      return (key, value) :: (← attributes c depth rest)
  | .block .. :: rest => attributes c depth rest

/-- Puts the value of a block, or none if it has an error, into an object. Gives the object as it is
then, and the error if there is one. -/
def place (ident : String) (labels : List String) (value : Except ConvertError Object)
    (out : Object) : Object × Except ConvertError Unit :=
  match value with
  | .error e => (out, throw e)
  | .ok inner =>
      let (out, added) := Object.graft ident labels (.object inner) out
      (out, if added then return () else throw (.mergeConflict (ident :: labels)))

mutual

def blockBody (c : Conversion) (depth : δ) : Structure → Except ConvertError Object
  | .attribute .. => return []
  | .block _ _ body => do
      let depth ← c.descend depth
      let entries ← attributes c depth body
      let (out, result) := mergeBlocks c depth body (Entries.ofList entries)
      result
      return out
  termination_by structural item => item

/-- Puts the blocks of a body into an object, in order, up to the first that has an error. Gives the
object as it is then, and the error if there is one. -/
def mergeBlocks (c : Conversion) (depth : δ) :
    Body → Object → Object × Except ConvertError Unit
  | [], out => (out, return ())
  | .attribute .. :: rest, out => mergeBlocks c depth rest out
  | .block ident labels body :: rest, out =>
      match place ident labels (blockBody c depth (.block ident labels body)) out with
      | (out, .ok _) => mergeBlocks c depth rest out
      | (out, .error e) => (out, throw e)
  termination_by structural items => items

end

def body (c : Conversion) (depth : δ) (structures : Body) : Except ConvertError Object := do
  let depth ← c.descend depth
  let entries ← c.attributes depth structures
  let (out, result) := c.mergeBlocks depth structures (Entries.ofList entries)
  result
  return out

theorem blockBody_block (c : Conversion) (depth : δ) (ident : String) (labels : List String)
    (structures : Body) :
    c.blockBody depth (.block ident labels structures) = c.body depth structures := by
  simp only [blockBody, body]

/-- Puts a block into an object. Its body is converted first. Gives the object as it is then, and
the error if there is one. -/
def mergeBlock (c : Conversion) (depth : δ) (ident : String) (labels : List String)
    (structures : Body) (out : Object) : Object × Except ConvertError Unit :=
  place ident labels (c.body depth structures) out

end HclToJson.Conversion
