import HclToJson.Convert.Graft
import HclToJson.Proofs.Object.Path

namespace HclToJson.Object

open Entries Value

variable {key label : String} {labels : List String} {value : Value} {entries inner : Object}

/-- The value of a key after one more value is added to it. -/
def stacked : Option Value → Value → Value
  | none, value => value
  | some (.array items), value => .array (items ++ [value])
  | some first, value => .array [first, value]

/-- The entries that a path through a key goes on in, if they are or can become those of an
object. -/
def below? (entries : Object) (key : String) : Option Object :=
  match get? entries key with
  | none => some []
  | some value => value.entries?

theorem below?_of_get?_eq_none (h : get? entries key = none) : below? entries key = some [] := by
  simp [below?, h]

theorem below?_of_get? (h : get? entries key = some value) :
    below? entries key = value.entries? := by
  simp [below?, h]

theorem get?_of_below? (h : below? entries key = some inner) :
    (get? entries key = none ∧ inner = []) ∨ get? entries key = some (.object inner) := by
  cases hget : get? entries key with
  | none =>
      rw [below?_of_get?_eq_none hget] at h
      exact Or.inl ⟨rfl, (Option.some.inj h).symm⟩
  | some old =>
      rw [below?_of_get? hget, entries?_eq_some_iff] at h
      exact Or.inr (congrArg some h)

theorem graft_nil (key : String) (value : Value) (entries : Object) :
    graft key [] value entries =
      (insert entries key (stacked (get? entries key) value), true) := by
  simp only [graft, stack]
  cases h : get? entries key with
  | none => rfl
  | some old => cases old <;> rfl

theorem graft_cons_of_below?_eq_none (labels : List String) (value : Value)
    (h : below? entries key = none) :
    graft key (label :: labels) value entries = (entries, false) := by
  simp only [graft]
  cases hget : get? entries key with
  | none => simp [below?, hget] at h
  | some old =>
      cases old with
      | object inner => simp [below?, hget] at h
      | _ => rfl

theorem graft_cons_of_below? (label : String) (labels : List String) (value : Value)
    (h : below? entries key = some inner) :
    graft key (label :: labels) value entries =
      (insert entries key (.object (graft label labels value inner).1),
        (graft label labels value inner).2) := by
  simp only [graft]
  rcases get?_of_below? h with ⟨hget, rfl⟩ | hget
  · rw [hget]
  · rw [hget]

theorem graft_nil_added (key : String) (labels : List String) (value : Value) :
    (graft key labels value []).2 = true := by
  induction labels generalizing key with
  | nil => rw [graft_nil]
  | cons label labels ih =>
      rw [graft_cons_of_below? label labels value (below?_of_get?_eq_none (get?_nil key))]
      exact ih label

/-- A graft that fails leaves the object as it was: objects are created only where the rest of the
path cannot fail any more. -/
theorem graft_of_not_added (h : (graft key labels value entries).2 = false) :
    (graft key labels value entries).1 = entries := by
  induction labels generalizing key entries with
  | nil => simp [graft_nil] at h
  | cons label labels ih =>
      cases hbelow : below? entries key with
      | none => rw [graft_cons_of_below?_eq_none labels value hbelow]
      | some inner =>
          rw [graft_cons_of_below? label labels value hbelow] at h ⊢
          rcases get?_of_below? hbelow with ⟨-, rfl⟩ | hget
          · simp [graft_nil_added] at h
          · rw [ih h, insert_eq_self hget]

theorem at?_of_below? {path : List String} (h : below? entries key = some inner)
    (hpath : path ≠ []) :
    (Value.object entries).at? (key :: path) = (Value.object inner).at? path := by
  rcases get?_of_below? h with ⟨hget, rfl⟩ | hget
  · obtain ⟨next, rest, rfl⟩ := List.exists_cons_of_ne_nil hpath
    simp [hget]
  · simp [hget]

theorem entriesAt_of_below? (h : below? entries key = some inner) (path : List String) :
    (Value.object entries).entriesAt (key :: path) = (Value.object inner).entriesAt path := by
  rcases path with _ | ⟨next, rest⟩
  · rcases get?_of_below? h with ⟨hget, rfl⟩ | hget
    · simp [entriesAt, hget]
    · simp [entriesAt, hget]
  · simp only [entriesAt, at?_of_below? h (List.cons_ne_nil next rest)]

theorem exists_below?_of_added (h : (graft key (label :: labels) value entries).2 = true) :
    ∃ inner, below? entries key = some inner ∧ (graft label labels value inner).2 = true := by
  cases hbelow : below? entries key with
  | none => simp [graft_cons_of_below?_eq_none labels value hbelow] at h
  | some inner =>
      rw [graft_cons_of_below? label labels value hbelow] at h
      exact ⟨inner, rfl, h⟩

theorem get?_graft_of_ne {other : String} (labels : List String) (value : Value)
    (entries : Object) (h : other ≠ key) :
    get? (graft key labels value entries).1 other = get? entries other := by
  rcases labels with _ | ⟨label, labels⟩
  · rw [graft_nil, get?_insert_of_ne _ _ h]
  · cases hbelow : below? entries key with
    | none => rw [graft_cons_of_below?_eq_none labels value hbelow]
    | some inner =>
        rw [graft_cons_of_below? label labels value hbelow, get?_insert_of_ne _ _ h]

theorem keys_graft (h : (graft key labels value entries).2 = true) :
    keys (graft key labels value entries).1 = withKey (keys entries) key := by
  rcases labels with _ | ⟨label, labels⟩
  · rw [graft_nil, keys_insert]
  · obtain ⟨inner, hbelow, -⟩ := exists_below?_of_added h
    rw [graft_cons_of_below? label labels value hbelow, keys_insert]

theorem at?_graft_self (h : (graft key labels value entries).2 = true) :
    (Value.object (graft key labels value entries).1).at? (key :: labels) =
      some (stacked ((Value.object entries).at? (key :: labels)) value) := by
  induction labels generalizing key entries with
  | nil =>
      rw [graft_nil, at?_insert_self]
      simp
  | cons label labels ih =>
      obtain ⟨inner, hbelow, hadded⟩ := exists_below?_of_added h
      rw [graft_cons_of_below? label labels value hbelow, at?_insert_self, ih hadded,
        at?_of_below? hbelow (List.cons_ne_nil label labels)]

theorem at?_graft_of_branching {path : List String} (hfront : ¬ path <+: key :: labels)
    (hback : ¬ key :: labels <+: path) :
    (Value.object (graft key labels value entries).1).at? path =
      (Value.object entries).at? path := by
  induction labels generalizing key entries path with
  | nil =>
      obtain ⟨other, rest, rfl⟩ := List.exists_cons_of_ne_nil
        (fun hnil : path = [] => hfront (hnil ▸ List.nil_prefix))
      have hne : other ≠ key := fun heq => hback (by simp [heq])
      rw [at?_object_cons, at?_object_cons, get?_graft_of_ne _ _ _ hne]
  | cons label labels ih =>
      obtain ⟨other, rest, rfl⟩ := List.exists_cons_of_ne_nil
        (fun hnil : path = [] => hfront (hnil ▸ List.nil_prefix))
      by_cases hne : other = key
      · subst other
        rw [List.cons_prefix_cons] at hfront hback
        have hfront' : ¬ rest <+: label :: labels := fun hrest => hfront ⟨rfl, hrest⟩
        have hback' : ¬ label :: labels <+: rest := fun hrest => hback ⟨rfl, hrest⟩
        cases hbelow : below? entries key with
        | none => rw [graft_cons_of_below?_eq_none labels value hbelow]
        | some inner =>
            have hrest : rest ≠ [] := fun hnil => hfront' (hnil ▸ List.nil_prefix)
            rw [graft_cons_of_below? label labels value hbelow, at?_insert_self,
              ih hfront' hback', at?_of_below? hbelow hrest]
      · rw [at?_object_cons, at?_object_cons, get?_graft_of_ne _ _ _ hne]

/-- On the way to the value there are objects, each with the next key of the path. -/
theorem keys_graft_on_path (h : (graft key labels value entries).2 = true)
    {front back : List String} (hpath : key :: labels = front ++ label :: back) :
    ∃ inner, (Value.object (graft key labels value entries).1).at? front = some (.object inner) ∧
      keys inner = withKey (keys ((Value.object entries).entriesAt front)) label := by
  induction labels generalizing key entries front with
  | nil =>
      obtain ⟨rfl, rfl, rfl⟩ : front = [] ∧ key = label ∧ back = [] := by
        rcases front with _ | ⟨first, front⟩ <;> simp_all
      exact ⟨_, at?_nil _, keys_graft h⟩
  | cons next labels ih =>
      rcases front with _ | ⟨first, front⟩
      · obtain ⟨rfl, -⟩ := List.cons.inj hpath
        exact ⟨_, at?_nil _, keys_graft h⟩
      · obtain ⟨rfl, htail⟩ := List.cons.inj hpath
        obtain ⟨inner, hbelow, hadded⟩ := exists_below?_of_added h
        rw [graft_cons_of_below? next labels value hbelow, at?_insert_self,
          entriesAt_of_below? hbelow]
        exact ih hadded htail

theorem graft_added_iff :
    (graft key labels value entries).2 = true ↔
      ∀ path old, path <+: key :: labels → path ≠ key :: labels →
        (Value.object entries).at? path = some old → ∃ inner, old = .object inner := by
  induction labels generalizing key entries with
  | nil =>
      constructor
      · intro _ path old hpre hne hold
        obtain rfl : path = [] := by
          rcases path with _ | ⟨first, rest⟩
          · rfl
          · rw [List.cons_prefix_cons, List.prefix_nil] at hpre
            exact absurd (by rw [hpre.1, hpre.2]) hne
        exact ⟨entries, (Option.some.inj hold).symm⟩
      · intro _
        rw [graft_nil]
  | cons label labels ih =>
      constructor
      · intro h path old hpre hne hold
        obtain ⟨inner, hbelow, hadded⟩ := exists_below?_of_added h
        rcases path with _ | ⟨first, rest⟩
        · exact ⟨entries, (Option.some.inj hold).symm⟩
        · obtain ⟨rfl, hrest⟩ := List.cons_prefix_cons.mp hpre
          have hneRest : rest ≠ label :: labels := fun heq => hne (by rw [heq])
          by_cases hnil : rest = []
          · subst rest
            have hget : get? entries first = some old := by simpa using hold
            rw [below?_of_get? hget, entries?_eq_some_iff] at hbelow
            exact ⟨inner, hbelow⟩
          · rw [at?_of_below? hbelow hnil] at hold
            exact ih.mp hadded rest old hrest hneRest hold
      · intro h
        cases hbelow : below? entries key with
        | none =>
            cases hget : get? entries key with
            | none => simp [below?_of_get?_eq_none hget] at hbelow
            | some old =>
                obtain ⟨inner, rfl⟩ := h [key] old (by simp) (by simp) (by simp [hget])
                simp [below?_of_get? hget] at hbelow
        | some inner =>
            rw [graft_cons_of_below? label labels value hbelow]
            refine ih.mpr fun path old hpre hne hold => ?_
            by_cases hnil : path = []
            · subst path
              exact ⟨inner, (Option.some.inj hold).symm⟩
            · rw [← at?_of_below? hbelow hnil] at hold
              exact h (key :: path) old (List.cons_prefix_cons.mpr ⟨rfl, hpre⟩)
                (fun heq => hne (List.cons.inj heq).2) hold

end HclToJson.Object
