import HclToJson.Proofs.Convert.Depth
import HclToJson.Proofs.Object.Graft

namespace HclToJson.Conversion

open Object

theorem place_error (ident : String) (labels : List String) (e : ConvertError) (out : Object) :
    place ident labels (.error e) out = (out, .error e) := rfl

theorem place_ok (ident : String) (labels : List String) (inner out : Object) :
    place ident labels (.ok inner) out =
      ((graft ident labels (.object inner) out).1,
        if (graft ident labels (.object inner) out).2 then .ok ()
        else .error (.mergeConflict (ident :: labels))) := by
  simp only [place]
  cases (graft ident labels (.object inner) out).2 <;> rfl

/-- A body puts its blocks into the object one after the other, and ends at one that fails. -/
theorem mergeBlocks_block {δ : Type} [Counter δ] (c : Conversion) (depth : δ) (ident : String)
    (labels : List String) (inner rest : Body) (out : Object) :
    c.mergeBlocks depth (.block ident labels inner :: rest) out =
      match c.mergeBlock depth ident labels inner out with
      | (out, .ok _) => c.mergeBlocks depth rest out
      | (out, .error e) => (out, .error e) := by
  rw [mergeBlocks, blockBody_block]
  rfl

theorem mergeBlock_eq_ok {c : Conversion} {depth : Nat} {ident : String} {labels : List String}
    {inner : Body} {out result : Object}
    (h : c.mergeBlock depth ident labels inner out = (result, .ok ())) :
    ∃ object, c.body depth inner = .ok object ∧
      (graft ident labels (.object object) out).2 = true ∧
      (graft ident labels (.object object) out).1 = result := by
  unfold mergeBlock at h
  cases hbody : c.body depth inner with
  | error e =>
      rw [hbody, place_error] at h
      cases h
  | ok object =>
      rw [hbody, place_ok, Prod.mk.injEq] at h
      obtain ⟨hresult, hadded⟩ := h
      refine ⟨object, rfl, ?_, hresult⟩
      by_contra hnot
      rw [if_neg hnot] at hadded
      cases hadded

theorem mergeBlocks_block_eq_ok {c : Conversion} {depth : Nat} {ident : String}
    {labels : List String} {inner rest : Body} {out result : Object}
    (h : c.mergeBlocks depth (.block ident labels inner :: rest) out = (result, .ok ())) :
    ∃ next, c.mergeBlock depth ident labels inner out = (next, .ok ()) ∧
      c.mergeBlocks depth rest next = (result, .ok ()) := by
  rw [mergeBlocks_block] at h
  split at h
  · exact ⟨_, ‹_›, h⟩
  · cases h

theorem body_eq_ok_iff {c : Conversion} {depth : Nat} {structures : Body} {out : Object} :
    c.body depth structures = .ok out ↔
      depth < c.options.maxDepth ∧ ∃ entries,
        c.attributes (depth + 1) structures = .ok entries ∧
        c.mergeBlocks (depth + 1) structures (Entries.ofList entries) = (out, .ok ()) := by
  by_cases hlevel : depth < c.options.maxDepth
  · simp only [body, descend_of_lt hlevel, hlevel, true_and, bind, Except.bind]
    cases hentries : c.attributes (depth + 1) structures with
    | error e => simp
    | ok entries =>
        simp only [Except.ok.injEq, exists_eq_left']
        rcases c.mergeBlocks (depth + 1) structures (Entries.ofList entries) with ⟨object, _ | _⟩
        · simp
        · simp [pure, Except.pure]
  · simp [body_of_le structures (Nat.le_of_not_lt hlevel), hlevel]

/-- A block that cannot be put into an object leaves no trace in it, whether its body or its path is
to blame. -/
theorem mergeBlock_error_unchanged {c : Conversion} {depth : Nat} {ident : String}
    {labels : List String} {structures : Body} {out : Object} {e : ConvertError}
    (h : (c.mergeBlock depth ident labels structures out).2 = .error e) :
    (c.mergeBlock depth ident labels structures out).1 = out := by
  unfold mergeBlock at h ⊢
  cases hbody : c.body depth structures with
  | error cause => rw [place_error]
  | ok inner =>
      rw [hbody, place_ok] at h
      rw [place_ok]
      apply graft_of_not_added
      cases hadded : (graft ident labels (.object inner) out).2 with
      | false => rfl
      | true => simp [hadded] at h

/-- The path `a.b.c` enters the object of `a` and ends at the array of `a.b`. -/
theorem mergeBlock_conflict_below_array :
    (Conversion.mergeBlock ⟨[], {}⟩ 0 "a" ["b", "c"] []
        [("x", .null), ("a", .object [("z", .boolean true), ("b", .array [.object []])])]).2 =
      .error (.mergeConflict ["a", "b", "c"]) ∧
    (Conversion.mergeBlock ⟨[], {}⟩ 0 "a" ["b", "c"] []
        [("x", .null), ("a", .object [("z", .boolean true), ("b", .array [.object []])])]).1 =
      [("x", .null), ("a", .object [("z", .boolean true), ("b", .array [.object []])])] :=
  ⟨rfl, mergeBlock_error_unchanged (e := .mergeConflict ["a", "b", "c"]) rfl⟩

end HclToJson.Conversion
