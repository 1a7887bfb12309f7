namespace HclToJson

/-- Keys and values in order; objects that are built by `insert` hold each key once. -/
abbrev Entries (α : Type) := List (String × α)

namespace Entries

def keys (entries : Entries α) : List String := entries.map (·.1)

def get? : Entries α → String → Option α
  | [], _ => none
  | (k, v) :: rest, key => if k = key then some v else get? rest key

/-- Sets the value of a key. A key that is there keeps its place, a new one comes last. -/
def insert : Entries α → String → α → Entries α
  | [], key, value => [(key, value)]
  | (k, v) :: rest, key, value =>
      if k = key then (key, value) :: rest else (k, v) :: insert rest key value

/-- The entries of a list in which a key may be given more than once: the last value counts, at the
place of the first. -/
def ofList (items : List (String × α)) : Entries α :=
  items.foldl (fun entries (key, value) => entries.insert key value) []

end Entries

end HclToJson
