import HclToJson.Proofs.Body.Attributes
import HclToJson.Proofs.Body.Steps
import HclToJson.Proofs.Object.Effect

namespace HclToJson

open Entries Object Body

/-- Only an object lets a path go on. -/
theorem Value.closedTo_of_ne_object {value : Value} (label : String) (labels : List String)
    (h : ∀ inner, value ≠ .object inner) : value.ClosedTo (label :: labels) :=
  ⟨[], value, List.nil_prefix, nofun, at?_nil value, h⟩

theorem Value.ClosedTo.cons {value : Value} {key : String} {path : List String} {out : Object}
    (h : value.ClosedTo path) (hkey : get? out key = some value) :
    (Value.object out).ClosedTo (key :: path) := by
  obtain ⟨front, old, hpre, hne, hold, hclosed⟩ := h
  refine ⟨key :: front, old, List.cons_prefix_cons.mpr ⟨rfl, hpre⟩, ?_, ?_, hclosed⟩
  · exact fun heq => hne (List.cons.inj heq).2
  · rw [at?_object_cons, hkey]
    exact hold

namespace Conversion

variable {c : Conversion} {depth : Nat} {name label : String} {labels path : List String}
  {structures front back inner : Body} {item : Structure} {e : Expr} {out next object : Object}

theorem closedTo_mergeStructure (hclosed : (Value.object out).ClosedTo path)
    (h : c.mergeStructure depth item out = .ok next) : (Value.object next).ClosedTo path := by
  rcases item with ⟨name, e⟩ | ⟨ident, labels, inner⟩
  · rw [mergeStructure_attribute] at h
    cases h
    exact hclosed
  · rw [mergeStructure_block] at h
    obtain ⟨object, -, -, rfl⟩ := finished_place_eq_ok_iff.mp h
    exact closedTo_graft hclosed

/-- No run of blocks opens a path that is closed when it starts. -/
theorem closedTo_mergeBlocks (hclosed : (Value.object out).ClosedTo path)
    (h : finished (c.mergeBlocks depth structures out) = .ok next) :
    (Value.object next).ClosedTo path := by
  induction structures generalizing out with
  | nil =>
      cases h
      exact hclosed
  | cons item rest ih =>
      rw [finished_mergeBlocks_cons] at h
      obtain ⟨result, hresult, hrest⟩ := bind_eq_ok_iff.mp h
      exact ih (closedTo_mergeStructure hclosed hresult) hrest

theorem mergeStructure_of_closedTo (hclosed : (Value.object out).ClosedTo (name :: labels))
    (hinner : c.body depth inner = .ok object) :
    c.mergeStructure depth (.block name labels inner) out =
      .error (.mergeConflict (name :: labels)) := by
  rw [mergeStructure_block, finished_place, hinner, ok_bind]
  exact if_neg fun hadded => (graft_added_iff_not_closedTo (.object object)).mp hadded hclosed

theorem mergeBlocks_ne_ok_of_closedTo (hblock : .block name labels inner ∈ structures)
    (hclosed : (Value.object out).ClosedTo (name :: labels)) :
    finished (c.mergeBlocks depth structures out) ≠ .ok next := by
  intro h
  obtain ⟨before, after, rfl⟩ := List.append_of_mem hblock
  rw [finished_mergeBlocks_append] at h
  obtain ⟨result, hresult, hrest⟩ := bind_eq_ok_iff.mp h
  rw [finished_mergeBlocks_cons] at hrest
  obtain ⟨result', hmerged, -⟩ := bind_eq_ok_iff.mp hrest
  obtain ⟨object, hobject, -, -⟩ := finished_place_eq_ok_iff.mp hmerged
  rw [mergeStructure_of_closedTo (closedTo_mergeBlocks hclosed hresult) hobject] at hmerged
  cases hmerged

/-- The run comes to the block, and ends there. -/
theorem mergeBlocks_of_closedTo {before after : Body}
    (hclosed : (Value.object out).ClosedTo (name :: labels))
    (hinner : c.body depth inner = .ok object)
    (hbefore : finished (c.mergeBlocks depth before out) = .ok next) :
    finished (c.mergeBlocks depth (before ++ .block name labels inner :: after) out) =
      .error (.mergeConflict (name :: labels)) := by
  have hconflict := mergeStructure_of_closedTo (closedTo_mergeBlocks hclosed hbefore) hinner
  rw [finished_mergeBlocks_append, hbefore, ok_bind, finished_mergeBlocks_cons, hconflict,
    error_bind]

/-- A body is not converted if it has an attribute, and a block whose path starts with the name of the
attribute and goes on, unless the labels can go on in the value of the attribute: that has to be an
object, with nothing but objects wherever the labels lead before they end. The error is the conflict
at the path of the block if everything else converts. -/
theorem attribute_conflicts_with_block
    (hattribute : structures = front ++ .attribute name e :: back)
    (hlast : name ∉ attributeNames back)
    (hblock : .block name (label :: labels) inner ∈ structures)
    (hclosed : ∀ value, c.expression (depth + 1) e = .ok value →
      value.ClosedTo (label :: labels)) :
    (∀ out, c.body depth structures ≠ .ok out) ∧
    ∀ before after object other,
      structures = before ++ .block name (label :: labels) inner :: after →
      c.body (depth + 1) inner = .ok object → c.body depth (before ++ after) = .ok other →
      c.body depth structures = .error (.mergeConflict (name :: label :: labels)) := by
  -- In the object of the attributes the path of the block is closed.
  have hbase : ∀ entries, c.attributes (depth + 1) structures = .ok entries →
      (Value.object (Entries.ofList entries)).ClosedTo (name :: label :: labels) := by
    intro entries hentries
    rw [hattribute] at hentries
    obtain ⟨value, hvalue, hget⟩ := get?_attributes hentries hlast
    exact (hclosed value hvalue).cons hget
  constructor
  · intro out h
    obtain ⟨-, entries, hentries, hmerge⟩ := exists_attributes_of_body h
    exact mergeBlocks_ne_ok_of_closedTo hblock (hbase entries hentries) hmerge
  · intro before after object other hstructures hobject hother
    obtain ⟨hlevel, entries, hothers, hmerge⟩ := exists_attributes_of_body hother
    have hentries : c.attributes (depth + 1) structures = .ok entries := by
      rw [hstructures, attributes_block, hothers]
    rw [finished_mergeBlocks_append] at hmerge
    obtain ⟨next, hbefore, -⟩ := bind_eq_ok_iff.mp hmerge
    rw [body_of_attributes hlevel hentries, hstructures]
    exact mergeBlocks_of_closedTo (hbase entries hentries) hobject hbefore

/-- A value that is no object meets a block that stands in front of it. -/
def flagged : Body :=
  [.block "foo" ["x"] [], .attribute "a" (.null .nowhere), .attribute "foo" (.bool .nowhere true)]

/-- The labels enter an object, and come to a value in it before they end. -/
def boxed : Body :=
  [.attribute "foo" (.object .nowhere [.mk .nowhere (.ident "x") (.null .nowhere)]),
    .block "foo" ["z"] [], .block "foo" ["x", "y"] []]

theorem attribute_conflicts_with_block_flagged :
    Conversion.body ⟨[], {}⟩ 0 flagged = .error (.mergeConflict ["foo", "x"]) ∧
    Conversion.body ⟨[], {}⟩ 0 boxed = .error (.mergeConflict ["foo", "x", "y"]) ∧
    (∀ out, Conversion.body ⟨[], {}⟩ 0 flagged ≠ .ok out) ∧
    ∀ out, Conversion.body ⟨[], {}⟩ 0 boxed ≠ .ok out := by
  have hflagged : ∀ value, Conversion.expression ⟨[], {}⟩ 1 (.bool .nowhere true) = .ok value →
      value.ClosedTo ["x"] := by
    rintro _ ⟨⟩
    exact Value.closedTo_of_ne_object "x" [] nofun
  have hboxed : ∀ value, Conversion.expression ⟨[], {}⟩ 1
      (.object .nowhere [.mk .nowhere (.ident "x") (.null .nowhere)]) = .ok value →
      value.ClosedTo ["x", "y"] := by
    rintro _ ⟨⟩
    exact ⟨["x"], .null, by decide, nofun, rfl, nofun⟩
  have hlastFlag : flagged = [.block "foo" ["x"] [], .attribute "a" (.null .nowhere)] ++
      .attribute "foo" (.bool .nowhere true) :: [] := rfl
  have hlastBox : boxed = [] ++ .attribute "foo" (.object .nowhere
      [.mk .nowhere (.ident "x") (.null .nowhere)]) ::
        [.block "foo" ["z"] [], .block "foo" ["x", "y"] []] := rfl
  have hblockFlag : Structure.block "foo" ["x"] [] ∈ flagged := List.mem_cons_self
  have hblockBox : Structure.block "foo" ["x", "y"] [] ∈ boxed := by simp [boxed]
  have hfirst := attribute_conflicts_with_block hlastFlag (by decide) hblockFlag hflagged
  have hsecond := attribute_conflicts_with_block hlastBox (by decide) hblockBox hboxed
  refine ⟨?_, ?_, hfirst.1, hsecond.1⟩
  · exact hfirst.2 [] _ [] _ rfl rfl rfl
  · exact hsecond.2 [_, _] [] [] _ rfl rfl rfl

/-- An attribute that is an object is entered by the block: `foo = {}` and `foo "x" {}` give one
object. -/
theorem block_enters_attribute :
    ¬ ∀ (c : Conversion) (depth : Nat) (structures : Body) (name label : String)
      (labels : List String) (e : Expr) (inner : Body),
      .attribute name e ∈ structures → .block name (label :: labels) inner ∈ structures →
      ∀ out, c.body depth structures ≠ .ok out := by
  intro h
  refine h ⟨[], {}⟩ 0 [.attribute "foo" (.object .nowhere []), .block "foo" ["x"] []] "foo" "x" []
    (.object .nowhere []) [] (by simp) (by simp) [("foo", .object [("x", .object [])])] rfl

end Conversion

end HclToJson
