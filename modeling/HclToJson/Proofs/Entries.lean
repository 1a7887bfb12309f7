import HclToJson.Entries
import Mathlib.Data.List.Induction

namespace HclToJson.Entries

variable {α : Type} {entries : Entries α} {key other : String} {value : α}

@[simp] theorem get?_nil (key : String) : get? ([] : Entries α) key = none := rfl

@[simp] theorem keys_nil : keys ([] : Entries α) = [] := rfl

@[simp] theorem keys_cons (entry : String × α) (rest : Entries α) :
    keys (entry :: rest) = entry.1 :: keys rest := rfl

theorem keys_append (front back : Entries α) : keys (front ++ back) = keys front ++ keys back :=
  List.map_append

@[simp] theorem get?_insert_self (entries : Entries α) (key : String) (value : α) :
    get? (insert entries key value) key = some value := by
  induction entries with
  | nil => simp [insert, get?]
  | cons entry rest ih =>
      obtain ⟨first, old⟩ := entry
      by_cases h : first = key
      · simp [insert, get?, h]
      · simpa [insert, get?, h] using ih

theorem get?_insert_of_ne (entries : Entries α) (value : α) (h : other ≠ key) :
    get? (insert entries key value) other = get? entries other := by
  induction entries with
  | nil => simp [insert, get?, h.symm]
  | cons entry rest ih =>
      obtain ⟨first, old⟩ := entry
      by_cases hfirst : first = key
      · subst first
        simp [insert, get?, h.symm]
      · simp only [insert, hfirst, ↓reduceIte, get?, ih]

theorem insert_eq_self (h : get? entries key = some value) :
    insert entries key value = entries := by
  induction entries with
  | nil => simp at h
  | cons entry rest ih =>
      obtain ⟨first, old⟩ := entry
      by_cases hfirst : first = key
      · have hold : old = value := by simpa [get?, hfirst] using h
        simp [insert, hfirst, hold]
      · have hrest : get? rest key = some value := by simpa [get?, hfirst] using h
        simp [insert, hfirst, ih hrest]

theorem insert_insert (entries : Entries α) (key : String) (value new : α) :
    insert (insert entries key value) key new = insert entries key new := by
  induction entries with
  | nil => simp [insert]
  | cons entry rest ih =>
      obtain ⟨first, old⟩ := entry
      by_cases h : first = key
      · simp [insert, h]
      · simp [insert, h, ih]

theorem get?_eq_none_iff : get? entries key = none ↔ key ∉ keys entries := by
  induction entries with
  | nil => simp
  | cons entry rest ih =>
      obtain ⟨first, old⟩ := entry
      by_cases h : first = key
      · simp [get?, h]
      · simp [get?, h, ih, Ne.symm h]

theorem mem_of_get? (h : get? entries key = some value) : (key, value) ∈ entries := by
  induction entries with
  | nil => simp at h
  | cons entry rest ih =>
      obtain ⟨first, old⟩ := entry
      by_cases hfirst : first = key
      · obtain rfl : old = value := by simpa [get?, hfirst] using h
        rw [hfirst]
        exact List.mem_cons_self
      · have hrest : get? rest key = some value := by simpa [get?, hfirst] using h
        exact List.mem_cons_of_mem _ (ih hrest)

/-- What holds of all entries still holds of all after another one is set that it holds of. -/
theorem forall_mem_insert {p : String × α → Prop} (h : ∀ entry ∈ entries, p entry)
    (hnew : p (key, value)) : ∀ entry ∈ insert entries key value, p entry := by
  induction entries with
  | nil => simpa [insert] using hnew
  | cons entry rest ih =>
      obtain ⟨first, old⟩ := entry
      rw [List.forall_mem_cons] at h
      by_cases hfirst : first = key
      · simp only [insert, hfirst, ↓reduceIte, List.forall_mem_cons]
        exact ⟨hnew, h.2⟩
      · simp only [insert, hfirst, ↓reduceIte, List.forall_mem_cons]
        exact ⟨h.1, ih h.2⟩

theorem insert_of_not_mem (value : α) (h : key ∉ keys entries) :
    insert entries key value = entries ++ [(key, value)] := by
  induction entries with
  | nil => rfl
  | cons entry rest ih =>
      obtain ⟨first, old⟩ := entry
      obtain ⟨hfirst, hrest⟩ : key ≠ first ∧ key ∉ keys rest := by simpa using h
      simp [insert, Ne.symm hfirst, ih hrest]

/-- Keys with one more, which comes last if it is new. -/
def withKey (keys : List String) (key : String) : List String :=
  if key ∈ keys then keys else keys ++ [key]

theorem withKey_append {front : List String} (back : List String) (h : key ∉ front) :
    withKey (front ++ back) key = front ++ withKey back key := by
  by_cases hback : key ∈ back
  · simp [withKey, hback]
  · simp [withKey, h, hback]

theorem keys_insert (entries : Entries α) (key : String) (value : α) :
    keys (insert entries key value) = withKey (keys entries) key := by
  induction entries with
  | nil => simp [insert, withKey]
  | cons entry rest ih =>
      obtain ⟨first, old⟩ := entry
      by_cases h : first = key
      · simp [insert, withKey, h]
      · by_cases hmem : key ∈ keys rest
        · simp [insert, withKey, h, ih, hmem]
        · simp [insert, withKey, h, ih, hmem, Ne.symm h]

theorem eraseDups_concat (keys : List String) (key : String) :
    (keys ++ [key]).eraseDups = withKey keys.eraseDups key := by
  rw [List.eraseDups_append]
  by_cases h : key ∈ keys
  · simp [withKey, h, List.removeAll]
  · simp [withKey, h, List.removeAll, List.eraseDups_cons]

theorem ofList_concat (items : List (String × α)) (key : String) (value : α) :
    ofList (items ++ [(key, value)]) = insert (ofList items) key value := by
  simp [ofList]

theorem keys_ofList (items : List (String × α)) :
    keys (ofList items) = (items.map (·.1)).eraseDups := by
  induction items using List.reverseRecOn with
  | nil => rfl
  | append_singleton items item ih =>
      obtain ⟨key, value⟩ := item
      rw [ofList_concat, keys_insert, ih, List.map_append, List.map_singleton, eraseDups_concat]

theorem ofList_eq_self {items : List (String × α)} (h : (items.map (·.1)).Nodup) :
    ofList items = items := by
  induction items using List.reverseRecOn with
  | nil => rfl
  | append_singleton items item ih =>
      obtain ⟨key, value⟩ := item
      rw [List.map_append, List.nodup_append] at h
      obtain ⟨hitems, -, hapart⟩ := h
      have hkey : key ∉ keys items := fun hmem => hapart key hmem key (by simp) rfl
      rw [ofList_concat, ih hitems, insert_of_not_mem value hkey]

theorem forall_mem_ofList {items : List (String × α)} {p : String × α → Prop}
    (h : ∀ item ∈ items, p item) : ∀ entry ∈ ofList items, p entry := by
  induction items using List.reverseRecOn with
  | nil => exact h
  | append_singleton items item ih =>
      obtain ⟨key, value⟩ := item
      rw [ofList_concat]
      apply forall_mem_insert
      · exact ih fun other hmem => h other (List.mem_append_left _ hmem)
      · exact h (key, value) (by simp)

theorem get?_ofList (front back : List (String × α)) (value : α)
    (h : key ∉ back.map (·.1)) :
    get? (ofList (front ++ (key, value) :: back)) key = some value := by
  induction back using List.reverseRecOn with
  | nil => rw [ofList_concat, get?_insert_self]
  | append_singleton back item ih =>
      obtain ⟨last, old⟩ := item
      have hlast : key ≠ last := fun heq => h (by simp [heq])
      have hback : key ∉ back.map (·.1) := fun hmem => h (by simp [hmem])
      rw [← List.cons_append, ← List.append_assoc, ofList_concat, get?_insert_of_ne _ _ hlast]
      exact ih hback

theorem nodup_eraseDups (keys : List String) : keys.eraseDups.Nodup := by
  induction keys using List.reverseRecOn with
  | nil => exact List.nodup_nil
  | append_singleton keys key ih =>
      rw [eraseDups_concat, withKey]
      split
      · exact ih
      · rename_i hkey
        refine List.nodup_append.mpr ⟨ih, by simp, fun other hother last hlast heq => hkey ?_⟩
        rwa [← List.mem_singleton.mp hlast, ← heq]

/-- Entries with each key once are given by the order of the keys and by their values. -/
theorem ext_get? {others : Entries α} (hkeys : keys entries = keys others)
    (hnodup : (keys others).Nodup)
    (hget : ∀ key ∈ keys others, get? entries key = get? others key) : entries = others := by
  induction others generalizing entries with
  | nil => exact List.map_eq_nil_iff.mp hkeys
  | cons entry rest ih =>
      cases entries with
      | nil => cases hkeys
      | cons first tail =>
          obtain ⟨key, value⟩ := entry
          obtain ⟨name, held⟩ := first
          obtain ⟨rfl, htail⟩ := List.cons.inj hkeys
          obtain ⟨hfresh, hrest⟩ := List.nodup_cons.mp hnodup
          obtain rfl : held = value := by simpa [get?] using hget name List.mem_cons_self
          have hgetRest : ∀ other ∈ keys rest, get? tail other = get? rest other := by
            intro other hother
            have hne : name ≠ other := fun heq => hfresh (heq ▸ hother)
            simpa [get?, hne] using hget other (List.mem_cons_of_mem _ hother)
          rw [ih htail hrest hgetRest]

/-- Entries that a list stands for in which a key may be given more than once. -/
structure LastWins (given entries : List (String × α)) : Prop where
  /-- A key stands where it is given first. -/
  keys : entries.map (·.1) = (given.map (·.1)).eraseDups
  /-- It has the value that is given last. -/
  last : ∀ front key value back, given = front ++ (key, value) :: back →
    key ∉ back.map (·.1) → get? entries key = some value

theorem exists_last {given : List (String × α)} (h : key ∈ given.map (·.1)) :
    ∃ front value back, given = front ++ (key, value) :: back ∧ key ∉ back.map (·.1) := by
  induction given with
  | nil => cases h
  | cons item rest ih =>
      by_cases hrest : key ∈ rest.map (·.1)
      · obtain ⟨front, value, back, rfl, hback⟩ := ih hrest
        exact ⟨item :: front, value, back, rfl, hback⟩
      · obtain ⟨name, value⟩ := item
        obtain rfl : key = name := (List.mem_cons.mp h).resolve_right hrest
        exact ⟨[], value, rest, rfl, hrest⟩

theorem lastWins_ofList (given : List (String × α)) : LastWins given (ofList given) where
  keys := keys_ofList given
  last := by
    rintro front key value back rfl h
    exact get?_ofList front back value h

theorem LastWins.eq_ofList {given : List (String × α)} (h : LastWins given entries) :
    entries = ofList given := by
  apply ext_get?
  · exact h.keys.trans (keys_ofList given).symm
  · rw [keys_ofList]
    exact nodup_eraseDups _
  · intro key hkey
    rw [keys_ofList, List.mem_eraseDups] at hkey
    obtain ⟨front, value, back, hgiven, hback⟩ := exists_last hkey
    rw [h.last front key value back hgiven hback,
      (lastWins_ofList given).last front key value back hgiven hback]

end HclToJson.Entries
