import HclToJson.Proofs.Body.Levels

namespace HclToJson.Conversion

open Object

variable {c : Conversion} {depth : Nat} {ident : String} {labels : List String}
  {structures : Body} {out result : Object}

theorem body_eq_bind (c : Conversion) (depth : Nat) (structures : Body) :
    c.body depth structures = c.descend depth >>= fun level =>
      c.attributes level structures >>= fun entries =>
        finished (c.mergeBlocks level structures (Entries.ofList entries)) := rfl

theorem body_of_attributes {entries : List (String × Value)} (hlevel : depth < c.options.maxDepth)
    (hentries : c.attributes (depth + 1) structures = .ok entries) :
    c.body depth structures =
      finished (c.mergeBlocks (depth + 1) structures (Entries.ofList entries)) := by
  rw [body_eq_bind, descend_of_lt hlevel, ok_bind, hentries, ok_bind]

/-- A body that is converted is one whose attributes are, and whose blocks go into their object. -/
theorem exists_attributes_of_body (h : c.body depth structures = .ok out) :
    depth < c.options.maxDepth ∧ ∃ entries, c.attributes (depth + 1) structures = .ok entries ∧
      finished (c.mergeBlocks (depth + 1) structures (Entries.ofList entries)) = .ok out := by
  obtain ⟨hlevel, entries, hentries, -⟩ := body_eq_ok_iff.mp h
  rw [body_of_attributes hlevel hentries] at h
  exact ⟨hlevel, entries, hentries, h⟩

def mergeStructure (c : Conversion) (depth : Nat) (item : Structure) (out : Object) :
    Except ConvertError Object :=
  match item with
  | .attribute .. => .ok out
  | .block ident labels inner => finished (c.mergeBlock depth ident labels inner out)

theorem mergeStructure_attribute (name : String) (e : Expr) (out : Object) :
    c.mergeStructure depth (.attribute name e) out = .ok out := rfl

theorem mergeStructure_block (ident : String) (labels : List String) (inner : Body)
    (out : Object) :
    c.mergeStructure depth (.block ident labels inner) out =
      finished (place ident labels (c.body depth inner) out) := rfl

theorem finished_mergeBlocks_cons (item : Structure) (rest : Body) (out : Object) :
    finished (c.mergeBlocks depth (item :: rest) out) =
      c.mergeStructure depth item out >>= fun next => finished (c.mergeBlocks depth rest next) := by
  rcases item with ⟨name, e⟩ | ⟨ident, labels, inner⟩
  · rfl
  · rw [mergeBlocks_block, mergeStructure]
    rcases c.mergeBlock depth ident labels inner out with ⟨next, _ | _⟩ <;> rfl

theorem finished_mergeBlocks_append (front back : Body) (out : Object) :
    finished (c.mergeBlocks depth (front ++ back) out) =
      finished (c.mergeBlocks depth front out) >>= fun next =>
        finished (c.mergeBlocks depth back next) := by
  induction front generalizing out with
  | nil => rfl
  | cons item front ih =>
      rw [List.cons_append, finished_mergeBlocks_cons, finished_mergeBlocks_cons, bind_assoc]
      exact congrArg (c.mergeStructure depth item out >>= ·) (funext ih)

theorem finished_place (ident : String) (labels : List String)
    (value : Except ConvertError Object) (out : Object) :
    finished (place ident labels value out) = value >>= fun inner =>
      if (graft ident labels (.object inner) out).2 then
        .ok (graft ident labels (.object inner) out).1
      else .error (.mergeConflict (ident :: labels)) := by
  cases value with
  | error e => rfl
  | ok inner =>
      rw [place_ok, ok_bind]
      cases (graft ident labels (.object inner) out).2 <;> rfl

theorem finished_place_eq_ok_iff {value : Except ConvertError Object} :
    finished (place ident labels value out) = .ok result ↔
      ∃ inner, value = .ok inner ∧ (graft ident labels (.object inner) out).2 = true ∧
        (graft ident labels (.object inner) out).1 = result := by
  rw [finished_place]
  cases value with
  | error e => exact ⟨nofun, nofun⟩
  | ok inner =>
      rw [ok_bind]
      split
      · simp [*]
      · simp [*]

end HclToJson.Conversion
