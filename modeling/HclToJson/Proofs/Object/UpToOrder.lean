import Mathlib.Data.List.Forall2
import HclToJson.Proofs.Object.Graft

/-!
Equality of values up to the order of keys. A graft keeps it, and two grafts whose paths branch off
from each other may change places.
-/

namespace HclToJson

open Entries

/-- Equality as maps: keys may stand in another order, at every level and also inside of arrays. -/
inductive Value.EqUpToOrder : Value → Value → Prop
  | refl (value : Value) : EqUpToOrder value value
  | array {items items' : List Value} (length : items.length = items'.length)
      (each : ∀ (i : Nat) (h : i < items.length) (h' : i < items'.length),
        EqUpToOrder items[i] items'[i]) :
      EqUpToOrder (.array items) (.array items')
  | object {entries entries' : Object}
      (keys : ∀ key, get? entries key = none ↔ get? entries' key = none)
      (each : ∀ key value value', get? entries key = some value →
        get? entries' key = some value' → EqUpToOrder value value') :
      EqUpToOrder (.object entries) (.object entries')

namespace Value.EqUpToOrder

variable {first second third first' second' : Value} {entries entries' : Object}
  {items items' : List Value}

theorem trans (h : EqUpToOrder first second) (h' : EqUpToOrder second third) :
    EqUpToOrder first third := by
  induction h generalizing third with
  | refl => exact h'
  | array length each ih =>
      cases h' with
      | refl => exact .array length each
      | array length' each' =>
          exact .array (length.trans length') fun i hi hi'' =>
            ih i hi (length ▸ hi) (each' i (length ▸ hi) hi'')
  | object keys each ih =>
      cases h' with
      | refl => exact .object keys each
      | object keys' each' =>
          refine .object (fun key => (keys key).trans (keys' key)) ?_
          intro key value value'' hvalue hvalue''
          obtain ⟨value', hvalue'⟩ := Option.ne_none_iff_exists'.mp fun hnone =>
            Option.some_ne_none value (hvalue.symm.trans ((keys key).mpr hnone))
          exact ih key value value' hvalue hvalue' (each' key value' value'' hvalue' hvalue'')

theorem array_iff :
    EqUpToOrder (.array items) (.array items') ↔ List.Forall₂ EqUpToOrder items items' := by
  rw [List.forall₂_iff_get]
  constructor
  · intro h
    cases h with
    | refl => exact ⟨rfl, fun i hi hi' => .refl _⟩
    | array length each => exact ⟨length, each⟩
  · rintro ⟨length, each⟩
    exact .array length each

theorem rel_refl (old : Option Value) : Option.Rel EqUpToOrder old old := by
  cases old with
  | none => exact .none
  | some value => exact .some (.refl value)

theorem object_iff :
    EqUpToOrder (.object entries) (.object entries') ↔
      ∀ key, Option.Rel EqUpToOrder (get? entries key) (get? entries' key) := by
  constructor
  · intro h key
    cases h with
    | refl => exact rel_refl _
    | object keys each =>
        cases hvalue : get? entries key with
        | none =>
            rw [(keys key).mp hvalue]
            exact .none
        | some value =>
            cases hvalue' : get? entries' key with
            | none => cases hvalue.symm.trans ((keys key).mpr hvalue')
            | some value' => exact .some (each key value value' hvalue hvalue')
  · intro h
    refine .object (fun key => ?_) fun key value value' hvalue hvalue' => ?_
    · have hkey := h key
      generalize get? entries key = old, get? entries' key = old' at hkey ⊢
      cases hkey with
      | none => simp
      | some => simp
    · have hkey := h key
      rw [hvalue, hvalue'] at hkey
      cases hkey with
      | some hvalues => exact hvalues

theorem insert (key : String) (h : EqUpToOrder (.object entries) (.object entries'))
    (hvalue : EqUpToOrder first first') :
    EqUpToOrder (.object (Entries.insert entries key first))
      (.object (Entries.insert entries' key first')) := by
  refine object_iff.mpr fun other => ?_
  by_cases hne : other = key
  · subst other
    rw [get?_insert_self, get?_insert_self]
    exact .some hvalue
  · rw [get?_insert_of_ne _ _ hne, get?_insert_of_ne _ _ hne]
    exact object_iff.mp h other

theorem pair (h : EqUpToOrder first first') (h' : EqUpToOrder second second') :
    EqUpToOrder (.array [first, second]) (.array [first', second']) :=
  array_iff.mpr (.cons h (.cons h' .nil))

theorem concat (h : EqUpToOrder (.array items) (.array items'))
    (h' : EqUpToOrder second second') :
    EqUpToOrder (.array (items ++ [second])) (.array (items' ++ [second'])) :=
  array_iff.mpr (List.rel_append (array_iff.mp h) (.cons h' .nil))

end Value.EqUpToOrder

namespace Object

open Value

variable {key key' : String} {labels labels' : List String} {value value' : Value}
  {entries entries' : Object}

theorem stacked_congr {old old' : Option Value} (h : Option.Rel EqUpToOrder old old')
    (hvalue : value.EqUpToOrder value') :
    (stacked old value).EqUpToOrder (stacked old' value') := by
  cases h with
  | none => exact hvalue
  | @some first first' h =>
      cases h with
      | refl =>
          cases first with
          | array items => exact .concat (.refl _) hvalue
          | _ => exact .pair (.refl _) hvalue
      | array length each => exact .concat (.array length each) hvalue
      | object keys each => exact .pair (.object keys each) hvalue

theorem below?_congr (h : (Value.object entries).EqUpToOrder (.object entries')) (key : String) :
    Option.Rel (fun inner inner' => (Value.object inner).EqUpToOrder (.object inner'))
      (below? entries key) (below? entries' key) := by
  have hkey := EqUpToOrder.object_iff.mp h key
  unfold below?
  generalize get? entries key = old, get? entries' key = old' at hkey ⊢
  cases hkey with
  | none => exact .some (.refl _)
  | @some first first' h =>
      cases h with
      | refl =>
          cases first with
          | object inner => exact .some (.refl _)
          | _ => exact .none
      | array => exact .none
      | object keys each => exact .some (.object keys each)

/-- A graft does the same to equal objects. -/
theorem graft_congr (key : String) (labels : List String) (value : Value)
    (h : (Value.object entries).EqUpToOrder (.object entries')) :
    (graft key labels value entries).2 = (graft key labels value entries').2 ∧
      (Value.object (graft key labels value entries).1).EqUpToOrder
        (.object (graft key labels value entries').1) := by
  induction labels generalizing key entries entries' with
  | nil =>
      rw [graft_nil, graft_nil]
      have hstacked := stacked_congr (EqUpToOrder.object_iff.mp h key) (.refl value)
      exact ⟨rfl, h.insert key hstacked⟩
  | cons label labels ih =>
      have hbelow := below?_congr h key
      generalize hold : below? entries key = old, hold' : below? entries' key = old' at hbelow
      cases hbelow with
      | none =>
          rw [graft_cons_of_below?_eq_none labels value hold,
            graft_cons_of_below?_eq_none labels value hold']
          exact ⟨rfl, h⟩
      | some hinner =>
          rw [graft_cons_of_below? label labels value hold,
            graft_cons_of_below? label labels value hold']
          obtain ⟨hadded, hinner⟩ := ih label hinner
          exact ⟨hadded, h.insert key hinner⟩

/-- What a graft does is decided by the value of its first key alone. -/
theorem graft_congr_get? (labels : List String) (value : Value)
    (h : get? entries key = get? entries' key) :
    (graft key labels value entries).2 = (graft key labels value entries').2 ∧
      get? (graft key labels value entries).1 key =
        get? (graft key labels value entries').1 key := by
  rcases labels with _ | ⟨label, labels⟩
  · simp only [graft_nil, get?_insert_self, h, and_self]
  · have hbelow : below? entries key = below? entries' key := by simp only [below?, h]
    cases hold : below? entries' key with
    | none =>
        rw [graft_cons_of_below?_eq_none labels value (hbelow.trans hold),
          graft_cons_of_below?_eq_none labels value hold]
        exact ⟨rfl, h⟩
    | some inner =>
        rw [graft_cons_of_below? label labels value (hbelow.trans hold),
          graft_cons_of_below? label labels value hold, get?_insert_self, get?_insert_self]
        exact ⟨rfl, rfl⟩

/-- Grafts at different keys have nothing to do with each other. -/
theorem graft_comm_of_ne (hne : key ≠ key') :
    (graft key' labels' value' (graft key labels value entries).1).2 =
        (graft key' labels' value' entries).2 ∧
      (Value.object (graft key' labels' value' (graft key labels value entries).1).1).EqUpToOrder
        (.object (graft key labels value (graft key' labels' value' entries).1).1) := by
  have hfirst := graft_congr_get? labels value
    (get?_graft_of_ne labels' value' entries hne)
  have hsecond := graft_congr_get? labels' value'
    (get?_graft_of_ne labels value entries hne.symm)
  refine ⟨hsecond.1, EqUpToOrder.object_iff.mpr fun other => ?_⟩
  by_cases heq : other = key
  · subst other
    rw [get?_graft_of_ne labels' value' _ hne, hfirst.2]
    exact EqUpToOrder.rel_refl _
  · rw [get?_graft_of_ne labels value (graft key' labels' value' entries).1 heq]
    by_cases heq' : other = key'
    · subst other
      rw [hsecond.2]
      exact EqUpToOrder.rel_refl _
    · rw [get?_graft_of_ne labels' value' _ heq', get?_graft_of_ne labels' value' _ heq',
        get?_graft_of_ne labels value _ heq]
      exact EqUpToOrder.rel_refl _

/-- Grafts at paths that branch off from each other may change places: neither decides whether the
other succeeds, and both orders give the same entries. -/
theorem graft_comm (value value' : Value) (entries : Object)
    (hfront : ¬ key :: labels <+: key' :: labels')
    (hback : ¬ key' :: labels' <+: key :: labels) :
    (graft key' labels' value' (graft key labels value entries).1).2 =
        (graft key' labels' value' entries).2 ∧
      (Value.object (graft key' labels' value' (graft key labels value entries).1).1).EqUpToOrder
        (.object (graft key labels value (graft key' labels' value' entries).1).1) := by
  induction labels generalizing key key' labels' entries with
  | nil =>
      refine graft_comm_of_ne ?_
      rintro rfl
      exact hfront ⟨labels', rfl⟩
  | cons label labels ih =>
      by_cases hne : key = key'
      · subst key'
        obtain ⟨label', labels', rfl⟩ := List.exists_cons_of_ne_nil
          (fun hnil : labels' = [] => hback (hnil ▸ ⟨label :: labels, rfl⟩))
        rw [List.cons_prefix_cons, not_and] at hfront hback
        cases hbelow : below? entries key with
        | none =>
            have hleft : graft key (label :: labels) value entries = (entries, false) :=
              graft_cons_of_below?_eq_none labels value hbelow
            rw [hleft, graft_cons_of_below?_eq_none labels' value' hbelow, hleft]
            exact ⟨rfl, .refl _⟩
        | some inner =>
            have hinto (next : Object) :
                below? (Entries.insert entries key (.object next)) key = some next := by
              rw [below?_of_get? (get?_insert_self _ _ _), entries?_object]
            rw [graft_cons_of_below? label labels value hbelow,
              graft_cons_of_below? label' labels' value' hbelow,
              graft_cons_of_below? label' labels' value' (hinto _),
              graft_cons_of_below? label labels value (hinto _)]
            obtain ⟨hadded, hinner⟩ := ih inner (hfront rfl) (hback rfl)
            rw [insert_insert, insert_insert]
            exact ⟨hadded, (EqUpToOrder.refl (.object entries)).insert key hinner⟩
      · exact graft_comm_of_ne hne

end Object

end HclToJson
