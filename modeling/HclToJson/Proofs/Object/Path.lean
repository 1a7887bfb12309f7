import HclToJson.Proofs.Entries
import HclToJson.Value

namespace HclToJson.Value

/-- The entries of an object; another value has none. -/
def entries? : Value → Option Object
  | object entries => some entries
  | _ => none

@[simp] theorem entries?_object (entries : Object) : (object entries).entries? = some entries := rfl

theorem entries?_eq_some_iff {value : Value} {entries : Object} :
    value.entries? = some entries ↔ value = object entries := by
  cases value <;> simp [entries?]

/-- The value that a path leads to: each key is looked up in the object that the keys before it
lead to. -/
def at? : Value → List String → Option Value
  | value, [] => some value
  | value, key :: path => (value.entries?.bind (Entries.get? · key)).bind (at? · path)

@[simp] theorem at?_nil (value : Value) : value.at? [] = some value := rfl

@[simp] theorem at?_object_cons (entries : Object) (key : String) (path : List String) :
    (object entries).at? (key :: path) = (Entries.get? entries key).bind (at? · path) := rfl

theorem at?_append (value : Value) (front back : List String) :
    value.at? (front ++ back) = (value.at? front).bind (at? · back) := by
  induction front generalizing value with
  | nil => rfl
  | cons key front ih =>
      simp only [List.cons_append, at?, Option.bind_assoc]
      congr 1
      funext inner
      exact congrArg _ (funext fun next => ih next)

/-- The entries that a path leads to; none if it leads to no object. -/
def entriesAt (value : Value) (path : List String) : Object :=
  ((value.at? path).bind entries?).getD []

@[simp] theorem entriesAt_object_nil (entries : Object) : (object entries).entriesAt [] = entries :=
  rfl

theorem entriesAt_of_at? {value : Value} {path : List String} {entries : Object}
    (h : value.at? path = some (object entries)) : value.entriesAt path = entries := by
  simp [entriesAt, h]

theorem entriesAt_of_at?_eq_none {value : Value} {path : List String}
    (h : value.at? path = none) : value.entriesAt path = [] := by
  simp [entriesAt, h]

theorem at?_concat (value : Value) (path : List String) (key : String) :
    value.at? (path ++ [key]) = Entries.get? (value.entriesAt path) key := by
  rw [at?_append]
  cases hpath : value.at? path with
  | none => simp [entriesAt_of_at?_eq_none hpath]
  | some inner =>
      cases hinner : inner.entries? with
      | none => simp [at?, entriesAt, hpath, hinner]
      | some entries => simp [at?, entriesAt, hpath, hinner]

theorem at?_insert_self (entries : Object) (key : String) (value : Value) (path : List String) :
    (object (Entries.insert entries key value)).at? (key :: path) = value.at? path := by
  simp

end HclToJson.Value
