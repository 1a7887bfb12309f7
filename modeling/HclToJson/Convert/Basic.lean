import HclToJson.Eval.Error
import HclToJson.Spelling

namespace HclToJson

def defaultMaxDepth : Nat := 128

structure Options where
  /-- Writes references as `${...}` in templates and where they are all of a value. -/
  keepInterpolation : Bool := false
  /-- The limit for the nesting of bodies, expressions and parts of templates. -/
  maxDepth : Nat := defaultMaxDepth

inductive ConvertError
  /-- The path of a block leads through a value that is no object. -/
  | mergeConflict (path : List String)
  /-- A literal whose operator cannot be applied, with its text in the source. -/
  | evaluation (text : String) (cause : Eval.Cause) (context : Expr)
  | depthExceeded (limit : Nat)

def ConvertError.message : ConvertError → String
  | mergeConflict path => "unable to convert Block to JSON: " ++ ".".intercalate path
  | evaluation text cause context =>
      s!"unable to evaluate `{text}`: {Eval.errorMessage cause context}"
  | depthExceeded limit => s!"maximum nesting depth of {limit} exceeded"

/-- What the levels of nesting are counted with. -/
class Counter (δ : Type) where
  next : δ → δ
  toNat : δ → Nat

instance : Counter Nat where
  next depth := depth + 1
  toNat depth := depth

/-- A machine word, which starts over behind the greatest one. -/
instance : Counter UInt64 where
  next depth := depth + 1
  toNat depth := depth.toNat

structure Conversion where
  source : Bytes
  options : Options

namespace Conversion

/-- The depth below `depth`, unless it is beyond the limit. -/
def descend {δ : Type} [Counter δ] (c : Conversion) (depth : δ) : Except ConvertError δ :=
  let below := Counter.next depth
  if Counter.toNat below ≤ c.options.maxDepth then return below
  else throw (.depthExceeded c.options.maxDepth)

/-- The text of an expression: that of its place in the source, or if it has none there the
normalized spelling of its tokens. -/
def sourceText (c : Conversion) (e : Expr) : String :=
  match e.span.bind (Source.extract? c.source) with
  | some text => text
  | none => Source.normalize (Spelling.exprText e)

def referenceText (c : Conversion) (e : Expr) : String :=
  if c.options.keepInterpolation then "$\x7b" ++ c.sourceText e ++ "\x7d" else c.sourceText e

end Conversion

def Step.isFixed : Step → Bool
  | .attribute .. | .element .. => true
  | .index _ (.number ..) | .index _ (.string ..) => true
  | .index .. | .attributeSplat .. | .fullSplat .. => false

def Expr.isReference : Expr → Bool
  | .var .. => true
  | .traversal _ (.var ..) path => path.all (·.isFixed)
  | _ => false

def Expr.literal? : Expr → Option Static
  | .null _ => some .null
  | .bool _ value => some (.bool value)
  | .number _ value => some (.number value)
  | .string _ value => some (.string value)
  | _ => none

end HclToJson
