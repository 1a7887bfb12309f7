import HclToJson.Comment.Strip
import HclToJson.Text.Blank
import HclToJson.Text.Utf8

namespace HclToJson

/-- The bytes from `start` up to, but not including, `stop`. -/
structure Span where
  start : Nat
  stop : Nat
  deriving DecidableEq

def Span.slice? (span : Span) (text : Bytes) : Option Bytes :=
  if span.start ≤ span.stop ∧ span.stop ≤ text.length then
    some ((text.drop span.start).take (span.stop - span.start))
  else none

namespace Source

/-- A text without comments, each run of white space a single space. -/
def normalize (text : Bytes) : String :=
  String.ofList (Text.collapse (Text.decode (Comment.strip text)))

def extract? (source : Bytes) (span : Span) : Option String :=
  (span.slice? source).map normalize

end Source

end HclToJson
