import HclToJson.Proofs.Object.Graft

namespace HclToJson

/-- A path ends in a value before its last key, at a value that is no object. -/
def Value.ClosedTo (value : Value) (path : List String) : Prop :=
  ∃ front old, front <+: path ∧ front ≠ path ∧ value.at? front = some old ∧
    ∀ inner, old ≠ .object inner

namespace Object

open Entries Value

variable {key : String} {labels path : List String} {value : Value} {out : Object}

/-- What becomes of the object `out` when a value is added at a path of it. -/
structure AddedAt (path : List String) (value : Value) (out result : Object) : Prop where
  /-- On the way there are objects. In each the next key of the path comes last if it is new, and
  the other keys have the values that they had. -/
  way : ∀ front key back, path = front ++ key :: back →
    ∃ inner, (Value.object result).at? front = some (.object inner) ∧
      keys inner = withKey (keys ((Value.object out).entriesAt front)) key ∧
      ∀ other, other ≠ key → get? inner other = get? ((Value.object out).entriesAt front) other
  /-- The value stands for itself, behind the items of an array, or behind another value. -/
  target : (Value.object result).at? path = some (stacked ((Value.object out).at? path) value)
  /-- Paths that branch off lead to what they led to before. -/
  beside : ∀ other, ¬ other <+: path → ¬ path <+: other →
    (Value.object result).at? other = (Value.object out).at? other

theorem graft_added_iff_not_closedTo (value : Value) :
    (graft key labels value out).2 = true ↔ ¬ (Value.object out).ClosedTo (key :: labels) := by
  rw [graft_added_iff]
  constructor
  · rintro h ⟨front, old, hpre, hne, hold, hclosed⟩
    obtain ⟨inner, hinner⟩ := h front old hpre hne hold
    exact hclosed inner hinner
  · intro h front old hpre hne hold
    by_contra hnone
    exact h ⟨front, old, hpre, hne, hold, fun inner hinner => hnone ⟨inner, hinner⟩⟩

/-- Two keys behind the same front branch off from each other. -/
theorem branching_of_ne (front back : List String) {other : String} (h : other ≠ key) :
    ¬ front ++ [other] <+: front ++ key :: back ∧ ¬ front ++ key :: back <+: front ++ [other] := by
  simp [List.prefix_append_right_inj, List.cons_prefix_cons, h, Ne.symm h]

theorem addedAt_graft (h : (graft key labels value out).2 = true) :
    AddedAt (key :: labels) value out (graft key labels value out).1 where
  way := by
    intro front next back hpath
    obtain ⟨inner, hinner, hkeys⟩ := keys_graft_on_path h hpath
    refine ⟨inner, hinner, hkeys, fun other hne => ?_⟩
    obtain ⟨hfront, hback⟩ := branching_of_ne front back hne
    rw [← hpath] at hfront hback
    calc get? inner other
        = (Value.object (graft key labels value out).1).at? (front ++ [other]) := by
          rw [at?_concat, entriesAt_of_at? hinner]
      _ = (Value.object out).at? (front ++ [other]) := at?_graft_of_branching hfront hback
      _ = get? ((Value.object out).entriesAt front) other := at?_concat _ front other
  target := at?_graft_self h
  beside := fun _ hfront hback => at?_graft_of_branching hfront hback

theorem stacked_some_ne_object (old value : Value) (inner : Object) :
    stacked (some old) value ≠ .object inner := by
  cases old <;> nofun

/-- No graft opens a path again: it changes the value at which the path ends to an array at most. -/
theorem closedTo_graft (h : (Value.object out).ClosedTo path) :
    (Value.object (graft key labels value out).1).ClosedTo path := by
  cases hadded : (graft key labels value out).2 with
  | false => rwa [graft_of_not_added hadded]
  | true =>
      obtain ⟨front, old, hpre, hne, hold, hclosed⟩ := h
      by_cases hback : key :: labels <+: front
      · -- The graft is at the value where the path ends, or above it.
        obtain ⟨rest, rfl⟩ := hback
        rw [at?_append] at hold
        obtain ⟨above, habove, -⟩ := Option.bind_eq_some_iff.mp hold
        have htarget := at?_graft_self hadded
        rw [habove] at htarget
        have hshort : key :: labels <+: path := (List.prefix_append _ rest).trans hpre
        refine ⟨key :: labels, _, hshort, ?_, htarget, stacked_some_ne_object above value⟩
        rintro rfl
        exact hne (hpre.eq_of_length_le (List.prefix_append _ rest).length_le)
      · have hfront : ¬ front <+: key :: labels := by
          intro hway
          have hproper : front ≠ key :: labels := fun heq => hback (heq ▸ List.prefix_refl front)
          obtain ⟨inner, hinner⟩ := graft_added_iff.mp hadded front old hway hproper hold
          exact hclosed inner hinner
        refine ⟨front, old, hpre, hne, ?_, hclosed⟩
        rw [at?_graft_of_branching hfront hback, hold]

end Object

end HclToJson
