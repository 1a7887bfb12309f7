import HclToJson.Value

namespace HclToJson.Object

/-- Adds a value to a key: a new key gets the value itself, an array one more item, and any other
value becomes the first item of an array. -/
def stack (entries : Object) (key : String) (value : Value) : Object :=
  match Entries.get? entries key with
  | none => entries.insert key value
  | some (.array items) => entries.insert key (.array (items ++ [value]))
  | some first => entries.insert key (.array [first, value])

/-- Adds a value at the path that starts with `key` and goes on with the labels. Objects that the
path leads through are created as it goes; it ends at a value that is no object. Gives the object
as it is then, and whether the value was added. -/
def graft (key : String) : List String → Value → Object → Object × Bool
  | [], value, entries => (stack entries key value, true)
  | label :: labels, value, entries =>
      match Entries.get? entries key with
      | none =>
          let (inner, added) := graft label labels value []
          (entries.insert key (.object inner), added)
      | some (.object inner) =>
          let (inner, added) := graft label labels value inner
          (entries.insert key (.object inner), added)
      | some _ => (entries, false)

end HclToJson.Object
