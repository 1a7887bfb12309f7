import HclToJson.Proofs.Body.Paths
import HclToJson.Proofs.Convert.Depth
import HclToJson.Proofs.Entries

namespace HclToJson.Conversion

open Entries Body

variable {c : Conversion} {depth : Nat} {name : String} {e : Expr} {front back : Body}

theorem attributes_attribute_eq_ok {name : String} {e : Expr} {rest : Body}
    {entries : List (String × Value)}
    (h : c.attributes depth (.attribute name e :: rest) = .ok entries) :
    ∃ value others, c.expression depth e = .ok value ∧ c.attributes depth rest = .ok others ∧
      entries = (name, value) :: others := by
  rw [attributes] at h
  obtain ⟨value, hvalue, h⟩ := bind_eq_ok_iff.mp h
  obtain ⟨others, hothers, h⟩ := bind_eq_ok_iff.mp h
  cases h
  exact ⟨value, others, hvalue, hothers, rfl⟩

theorem map_attributes {structures : Body} {entries : List (String × Value)}
    (h : c.attributes depth structures = .ok entries) :
    entries.map (·.1) = attributeNames structures := by
  induction structures generalizing entries with
  | nil =>
      cases h
      rfl
  | cons item rest ih =>
      rcases item with ⟨name, e⟩ | ⟨ident, labels, inner⟩
      · obtain ⟨value, others, -, hothers, rfl⟩ := attributes_attribute_eq_ok h
        rw [List.map_cons, ih hothers, attributeNames_attribute]
      · exact ih h

theorem attributes_split {entries : List (String × Value)}
    (h : c.attributes depth (front ++ .attribute name e :: back) = .ok entries) :
    ∃ before value after, entries = before ++ (name, value) :: after ∧
      c.expression depth e = .ok value ∧ c.attributes depth back = .ok after := by
  induction front generalizing entries with
  | nil =>
      obtain ⟨value, after, hvalue, hafter, rfl⟩ := attributes_attribute_eq_ok h
      exact ⟨[], value, after, rfl, hvalue, hafter⟩
  | cons item front ih =>
      rcases item with ⟨first, e'⟩ | ⟨ident, labels, inner⟩
      · obtain ⟨value', others, -, hothers, rfl⟩ := attributes_attribute_eq_ok h
        obtain ⟨before, value, after, rfl, hvalue, hafter⟩ := ih hothers
        exact ⟨(first, value') :: before, value, after, rfl, hvalue, hafter⟩
      · exact ih h

/-- The last attribute of a name decides what the blocks of a body find there. -/
theorem get?_attributes {entries : List (String × Value)}
    (h : c.attributes depth (front ++ .attribute name e :: back) = .ok entries)
    (hlast : name ∉ attributeNames back) :
    ∃ value, c.expression depth e = .ok value ∧
      get? (Entries.ofList entries) name = some value := by
  obtain ⟨before, value, after, rfl, hvalue, hafter⟩ := attributes_split h
  refine ⟨value, hvalue, get?_ofList before after value ?_⟩
  rwa [map_attributes hafter]

theorem attributes_block (front : Body) (labels : List String) (inner : Body) :
    c.attributes depth (front ++ .block name labels inner :: back) =
      c.attributes depth (front ++ back) := by
  induction front with
  | nil => rfl
  | cons item front ih =>
      rcases item with ⟨first, e'⟩ | ⟨ident, labels', inner'⟩
      · simp only [List.cons_append, attributes, ih]
      · exact ih

end HclToJson.Conversion
