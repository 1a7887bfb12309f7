import HclToJson.Proofs.Body.Merge
import HclToJson.Proofs.Object.Effect

namespace HclToJson.Conversion

open Object

variable {c : Conversion} {depth : Nat} {ident : String} {labels : List String} {structures : Body}
  {inner out result : Object} {outcome : Except ConvertError Unit}

theorem mergeBlock_of_body (h : c.body depth structures = .ok inner) :
    c.mergeBlock depth ident labels structures out =
      ((graft ident labels (.object inner) out).1,
        if (graft ident labels (.object inner) out).2 then .ok ()
        else .error (.mergeConflict (ident :: labels))) := by
  rw [mergeBlock, h, place_ok]

/-- A block is merged unless its path ends before its last key, at a value that is no object; that
is the conflict that tells the path. Once it is merged its object stands at the path, alone or behind
what was there, and only the path leads to anything new. -/
theorem mergeBlock_effect (h : c.body depth structures = .ok inner)
    (hmerge : c.mergeBlock depth ident labels structures out = (result, outcome)) :
    (outcome = .ok () ↔ ¬ (Value.object out).ClosedTo (ident :: labels)) ∧
    ((Value.object out).ClosedTo (ident :: labels) →
      ∃ e, outcome = .error e ∧ e = .mergeConflict (ident :: labels) ∧
        e.message = "unable to convert Block to JSON: " ++ ".".intercalate (ident :: labels)) ∧
    (outcome = .ok () → AddedAt (ident :: labels) (.object inner) out result) := by
  rw [mergeBlock_of_body h, Prod.mk.injEq] at hmerge
  obtain ⟨rfl, rfl⟩ := hmerge
  rw [← graft_added_iff_not_closedTo (.object inner)]
  cases hadded : (graft ident labels (.object inner) out).2 with
  | true =>
      have hopen := (graft_added_iff_not_closedTo (.object inner)).mp hadded
      exact ⟨by simp, fun hclosed => absurd hclosed hopen, fun _ => addedAt_graft hadded⟩
  | false => exact ⟨by simp, fun _ => ⟨_, rfl, rfl, rfl⟩, by simp⟩

/-- An object in an attribute with an array, which the path `a.b` leads to and the path `a.b.c` ends
at. -/
def shelf : Object :=
  [("x", .null), ("a", .object [("z", .boolean true), ("b", .array [.null]), ("y", .null)])]

def fullerShelf : Object :=
  [("x", .null),
    ("a", .object [("z", .boolean true), ("b", .array [.null, .object []]), ("y", .null)])]

theorem mergeBlock_effect_shelf :
    Conversion.body ⟨[], {}⟩ 0 [] = .ok [] ∧
    Conversion.mergeBlock ⟨[], {}⟩ 0 "a" ["b"] [] shelf = (fullerShelf, .ok ()) ∧
    AddedAt ["a", "b"] (.object []) shelf fullerShelf ∧
    Conversion.mergeBlock ⟨[], {}⟩ 0 "a" ["b", "c"] [] shelf =
      (shelf, .error (.mergeConflict ["a", "b", "c"])) ∧
    (Value.object shelf).ClosedTo ["a", "b", "c"] := by
  have hbody : Conversion.body ⟨[], {}⟩ 0 [] = .ok [] := rfl
  have hmerge : Conversion.mergeBlock ⟨[], {}⟩ 0 "a" ["b"] [] shelf = (fullerShelf, .ok ()) := rfl
  have hconflict : Conversion.mergeBlock ⟨[], {}⟩ 0 "a" ["b", "c"] [] shelf =
      (shelf, .error (.mergeConflict ["a", "b", "c"])) := rfl
  have hclosed : (Value.object shelf).ClosedTo ["a", "b", "c"] := by
    by_contra hopen
    exact nomatch (mergeBlock_effect hbody hconflict).1.mpr hopen
  exact ⟨hbody, hmerge, (mergeBlock_effect hbody hmerge).2.2 rfl, hconflict, hclosed⟩

end HclToJson.Conversion
