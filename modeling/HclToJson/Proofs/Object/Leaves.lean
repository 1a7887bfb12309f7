import Mathlib.Algebra.BigOperators.Group.Multiset.Basic
import HclToJson.Proofs.Object.Graft

namespace HclToJson

open Entries

mutual

def Value.leaves : Value → Multiset Value
  | .null => {.null}
  | .boolean value => {.boolean value}
  | .integer value => {.integer value}
  | .decimal value => {.decimal value}
  | .string value => {.string value}
  | .array items => itemsLeaves items
  | .object entries => entriesLeaves entries

def itemsLeaves : List Value → Multiset Value
  | [] => 0
  | item :: rest => item.leaves + itemsLeaves rest

def entriesLeaves : List (String × Value) → Multiset Value
  | [] => 0
  | (_, value) :: rest => value.leaves + entriesLeaves rest

end

@[simp] theorem Value.leaves_array (items : List Value) :
    (Value.array items).leaves = itemsLeaves items := rfl

@[simp] theorem Value.leaves_object (entries : Object) :
    (Value.object entries).leaves = entriesLeaves entries := rfl

@[simp] theorem itemsLeaves_nil : itemsLeaves [] = 0 := rfl

@[simp] theorem itemsLeaves_cons (item : Value) (rest : List Value) :
    itemsLeaves (item :: rest) = item.leaves + itemsLeaves rest := rfl

@[simp] theorem entriesLeaves_nil : entriesLeaves [] = 0 := rfl

@[simp] theorem entriesLeaves_cons (entry : String × Value) (rest : Object) :
    entriesLeaves (entry :: rest) = entry.2.leaves + entriesLeaves rest := rfl

theorem itemsLeaves_concat (items : List Value) (item : Value) :
    itemsLeaves (items ++ [item]) = itemsLeaves items + item.leaves := by
  induction items with
  | nil => simp
  | cons first rest ih => simp [ih, add_assoc]

namespace Object

variable {key : String} {labels : List String} {value old : Value} {entries : Object}

theorem entriesLeaves_insert_of_get?_eq_none (value : Value) (h : get? entries key = none) :
    entriesLeaves (Entries.insert entries key value) = entriesLeaves entries + value.leaves := by
  induction entries with
  | nil => simp [Entries.insert]
  | cons entry rest ih =>
      obtain ⟨first, held⟩ := entry
      by_cases hfirst : first = key
      · simp [get?, hfirst] at h
      · have hrest : get? rest key = none := by simpa [get?, hfirst] using h
        simp [Entries.insert, hfirst, ih hrest, add_assoc]

theorem entriesLeaves_insert_of_get? (value : Value) (h : get? entries key = some old) :
    entriesLeaves (Entries.insert entries key value) + old.leaves =
      entriesLeaves entries + value.leaves := by
  induction entries with
  | nil => simp at h
  | cons entry rest ih =>
      obtain ⟨first, held⟩ := entry
      by_cases hfirst : first = key
      · obtain rfl : held = old := by simpa [get?, hfirst] using h
        simp only [Entries.insert, hfirst, ↓reduceIte, entriesLeaves_cons]
        rw [add_comm value.leaves, add_right_comm, add_comm (entriesLeaves rest) held.leaves]
      · have hrest : get? rest key = some old := by simpa [get?, hfirst] using h
        simp only [Entries.insert, hfirst, ↓reduceIte, entriesLeaves_cons, add_assoc, ih hrest]

theorem leaves_stacked (old value : Value) :
    (stacked (some old) value).leaves = old.leaves + value.leaves := by
  cases old with
  | array items => exact itemsLeaves_concat items value
  | _ => simp [stacked]

/-- A new value that holds all of the old one adds what else it holds. -/
theorem entriesLeaves_insert_of_leaves {more : Multiset Value} {new : Value}
    (h : get? entries key = some old) (hnew : new.leaves = old.leaves + more) :
    entriesLeaves (Entries.insert entries key new) = entriesLeaves entries + more := by
  have hinsert := entriesLeaves_insert_of_get? new h
  rw [hnew, add_comm old.leaves, ← add_assoc] at hinsert
  exact add_right_cancel hinsert

theorem entriesLeaves_graft (h : (graft key labels value entries).2 = true) :
    entriesLeaves (graft key labels value entries).1 = entriesLeaves entries + value.leaves := by
  induction labels generalizing key entries with
  | nil =>
      rw [graft_nil]
      cases hget : get? entries key with
      | none => exact entriesLeaves_insert_of_get?_eq_none value hget
      | some old => exact entriesLeaves_insert_of_leaves hget (leaves_stacked old value)
  | cons label labels ih =>
      obtain ⟨inner, hbelow, hadded⟩ := exists_below?_of_added h
      rw [graft_cons_of_below? label labels value hbelow]
      have hinner := ih hadded
      rcases get?_of_below? hbelow with ⟨hget, rfl⟩ | hget
      · rw [entriesLeaves_insert_of_get?_eq_none _ hget, Value.leaves_object, hinner,
          entriesLeaves_nil, zero_add]
      · exact entriesLeaves_insert_of_leaves hget hinner

end Object

end HclToJson
