import HclToJson.Proofs.Object.Graft

namespace HclToJson

open Entries

mutual

/-- How deep the arrays and objects of a value are nested; 0 if it is neither. -/
def Value.nesting : Value → Nat
  | .array items => itemsNesting items + 1
  | .object entries => entriesNesting entries + 1
  | _ => 0

def itemsNesting : List Value → Nat
  | [] => 0
  | item :: rest => max item.nesting (itemsNesting rest)

def entriesNesting : List (String × Value) → Nat
  | [] => 0
  | (_, value) :: rest => max value.nesting (entriesNesting rest)

end

@[simp] theorem Value.nesting_array (items : List Value) :
    (Value.array items).nesting = itemsNesting items + 1 := rfl

@[simp] theorem Value.nesting_object (entries : Object) :
    (Value.object entries).nesting = entriesNesting entries + 1 := rfl

theorem itemsNesting_le_iff {items : List Value} {n : Nat} :
    itemsNesting items ≤ n ↔ ∀ item ∈ items, item.nesting ≤ n := by
  induction items with
  | nil => simp [itemsNesting]
  | cons item rest ih => rw [itemsNesting, Nat.max_le, ih, List.forall_mem_cons]

theorem itemsNesting_append (front back : List Value) :
    itemsNesting (front ++ back) = max (itemsNesting front) (itemsNesting back) := by
  induction front with
  | nil => simp [itemsNesting]
  | cons item rest ih => simp only [List.cons_append, itemsNesting, ih, Nat.max_assoc]

theorem entriesNesting_le_iff {entries : Object} {n : Nat} :
    entriesNesting entries ≤ n ↔ ∀ entry ∈ entries, entry.2.nesting ≤ n := by
  induction entries with
  | nil => simp [entriesNesting]
  | cons entry rest ih => rw [entriesNesting, Nat.max_le, ih, List.forall_mem_cons]

/-- The value of a key fits into a number of levels, whatever is grafted below the key: the arrays in
it, which no path leads into, are nested twice as deep at most, and an object takes one level. -/
inductive Fits : Nat → Value → Prop
  | closed {n : Nat} {value : Value} (hentries : value.entries? = none)
      (hnesting : value.nesting ≤ 2 * n) : Fits n value
  | object {n : Nat} {entries : Object} (h : ∀ entry ∈ entries, Fits n entry.2) :
      Fits (n + 1) (.object entries)

namespace Fits

variable {n : Nat} {value old : Value} {entries inner : Object}

theorem of_nesting_eq_zero (h : value.nesting = 0) : Fits n value := by
  cases value with
  | object entries => simp at h
  | _ => exact closed rfl (by omega)

theorem nesting_le (h : Fits n value) : value.nesting ≤ 2 * n := by
  induction h with
  | closed _ hnesting => exact hnesting
  | @object n entries _ ih =>
      have hentries : entriesNesting entries ≤ 2 * n := entriesNesting_le_iff.mpr ih
      rw [Value.nesting_object]
      omega

theorem array {items : List Value} (h : ∀ item ∈ items, Fits n item) :
    Fits (n + 1) (.array items) := by
  have hitems : itemsNesting items ≤ 2 * n :=
    itemsNesting_le_iff.mpr fun item hmem => (h item hmem).nesting_le
  apply closed rfl
  rw [Value.nesting_array]
  omega

theorem mono {m : Nat} (h : Fits n value) (hle : n ≤ m) : Fits m value := by
  induction h generalizing m with
  | closed hentries hnesting => exact closed hentries (by omega)
  | object _ ih =>
      obtain ⟨k, rfl⟩ : ∃ k, m = k + 1 := ⟨m - 1, by omega⟩
      exact object fun entry hmem => ih entry hmem (by omega)

theorem entries_fit (h : Fits (n + 1) (.object entries)) : ∀ entry ∈ entries, Fits n entry.2 := by
  cases h with
  | closed hentries _ => cases hentries
  | object h => exact h

/-- There is room for an array around an object. -/
theorem nesting_object_lt (h : Fits n (.object entries)) :
    (Value.object entries).nesting < 2 * n := by
  cases h with
  | closed hentries _ => cases hentries
  | @object n _ h =>
      have hentries : entriesNesting entries ≤ 2 * n :=
        entriesNesting_le_iff.mpr fun entry hmem => (h entry hmem).nesting_le
      rw [Value.nesting_object]
      omega

theorem stacked (hold : Fits n old) (h : Fits n (.object inner)) :
    Fits n (Object.stacked (some old) (.object inner)) := by
  have hinner := h.nesting_object_lt
  cases old with
  | array items =>
      have hitems := hold.nesting_le
      apply closed rfl
      simp only [Object.stacked, Value.nesting_array, itemsNesting_append, itemsNesting] at hitems ⊢
      omega
  | object entries =>
      have hentries := hold.nesting_object_lt
      apply closed rfl
      simp only [Object.stacked, Value.nesting_array, itemsNesting]
      omega
  | _ =>
      apply closed rfl
      simp only [Object.stacked, itemsNesting, Value.nesting] at hinner ⊢
      omega

/-- A graft of an object below a key needs a level for each label, on top of those of the object. -/
theorem graft {key : String} {labels : List String}
    (hentries : ∀ entry ∈ entries, Fits (n + labels.length) entry.2) (h : Fits n (.object inner)) :
    ∀ entry ∈ (Object.graft key labels (.object inner) entries).1,
      Fits (n + labels.length) entry.2 := by
  induction labels generalizing key entries with
  | nil =>
      rw [Object.graft_nil]
      apply forall_mem_insert hentries
      cases hget : get? entries key with
      | none => exact h
      | some old => exact stacked (hentries _ (mem_of_get? hget)) h
  | cons label labels ih =>
      cases hbelow : Object.below? entries key with
      | none =>
          rw [Object.graft_cons_of_below?_eq_none labels _ hbelow]
          exact hentries
      | some below =>
          rw [Object.graft_cons_of_below? label labels _ hbelow]
          apply forall_mem_insert hentries
          apply object
          apply ih
          rcases Object.get?_of_below? hbelow with ⟨-, rfl⟩ | hget
          · intro entry hmem
            cases hmem
          · exact (hentries _ (mem_of_get? hget)).entries_fit

end Fits

end HclToJson
