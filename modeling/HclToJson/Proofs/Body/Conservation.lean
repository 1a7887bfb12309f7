import Mathlib.Data.List.Forall2
import HclToJson.Proofs.Body.Attributes
import HclToJson.Proofs.Body.Merge
import HclToJson.Proofs.Object.Leaves

namespace HclToJson

open Entries Object Body

namespace Body

/-- No two attributes of the same body have a name in common, here and in the blocks. -/
inductive NamesApart : Body → Prop
  | intro {structures : Body} (names : (attributeNames structures).Nodup)
      (blocks : ∀ ident labels inner, Structure.block ident labels inner ∈ structures →
        NamesApart inner) : NamesApart structures

mutual

def structureAttributes (depth : Nat) : Structure → List (Nat × Expr)
  | .attribute _ e => [(depth, e)]
  | .block _ _ inner => allAttributes (depth + 1) inner

/-- The values of all attributes of a body and of the blocks in it, each with its depth. The
attributes of the body itself are at `depth`. -/
def allAttributes (depth : Nat) : Body → List (Nat × Expr)
  | [] => []
  | item :: rest => structureAttributes depth item ++ allAttributes depth rest

end

end Body

namespace Conversion

variable {c : Conversion} {depth : Nat}

/-- The values that all attributes of a body are converted to, in order. -/
def AllConvert (c : Conversion) (depth : Nat) (structures : Body) (values : List Value) : Prop :=
  List.Forall₂ (fun (level, e) value => c.expression level e = .ok value)
    (allAttributes depth structures) values

theorem AllConvert.append {ident : String} {labels : List String} {inner rest : Body}
    {inside values : List Value} (hinner : AllConvert c (depth + 1) inner inside)
    (hrest : AllConvert c depth rest values) :
    AllConvert c depth (.block ident labels inner :: rest) (inside ++ values) := by
  unfold AllConvert at hinner hrest ⊢
  exact List.rel_append hinner hrest

theorem mergeBlocks_leaves {structures : Body} {entries : List (String × Value)}
    {out result : Object}
    (hblocks : ∀ ident labels inner, Structure.block ident labels inner ∈ structures →
      ∀ object, c.body depth inner = .ok object →
        ∃ values, AllConvert c (depth + 1) inner values ∧
          entriesLeaves object = (values.map Value.leaves).sum)
    (hentries : c.attributes depth structures = .ok entries)
    (hmerge : c.mergeBlocks depth structures out = (result, .ok ())) :
    ∃ values, AllConvert c depth structures values ∧
      entriesLeaves result + entriesLeaves entries =
        entriesLeaves out + (values.map Value.leaves).sum := by
  -- The leaves of the attributes are counted on both sides, for blocks may stand between them.
  induction structures generalizing entries out with
  | nil =>
      cases hentries
      cases hmerge
      exact ⟨[], List.Forall₂.nil, rfl⟩
  | cons item rest ih =>
      have hrest := fun ident labels inner hmem =>
        hblocks ident labels inner (List.mem_cons_of_mem item hmem)
      rcases item with ⟨name, e⟩ | ⟨ident, labels, inner⟩
      · obtain ⟨value, others, hvalue, hothers, rfl⟩ := attributes_attribute_eq_ok hentries
        obtain ⟨values, hvalues, hleaves⟩ := ih hrest hothers hmerge
        refine ⟨value :: values, List.Forall₂.cons hvalue hvalues, ?_⟩
        rw [entriesLeaves_cons, List.map_cons, List.sum_cons, add_left_comm, hleaves,
          add_left_comm]
      · obtain ⟨next, hblock, hmerge⟩ := mergeBlocks_block_eq_ok hmerge
        obtain ⟨object, hobject, hadded, rfl⟩ := mergeBlock_eq_ok hblock
        obtain ⟨inside, hinside, hobjectLeaves⟩ :=
          hblocks ident labels inner List.mem_cons_self object hobject
        obtain ⟨values, hvalues, hleaves⟩ := ih hrest hentries hmerge
        refine ⟨inside ++ values, hinside.append hvalues, ?_⟩
        rw [hleaves, entriesLeaves_graft hadded, Value.leaves_object, hobjectLeaves,
          List.map_append, List.sum_append, add_assoc]

/-- Whatever a body converts to holds exactly the leaves of the values of all attributes in it:
nothing is overwritten, dropped or doubled where attributes, blocks and labels meet. -/
theorem leaves_body {structures : Body} {out : Object} (hnames : NamesApart structures)
    (h : c.body depth structures = .ok out) :
    ∃ values, AllConvert c (depth + 1) structures values ∧
      (Value.object out).leaves = (values.map Value.leaves).sum := by
  induction hnames generalizing depth out with
  | intro names _ ih =>
      obtain ⟨-, entries, hentries, hmerge⟩ := body_eq_ok_iff.mp h
      have hkeys : (entries.map (·.1)).Nodup := map_attributes hentries ▸ names
      rw [ofList_eq_self hkeys] at hmerge
      obtain ⟨values, hvalues, hleaves⟩ :=
        mergeBlocks_leaves (fun ident labels inner hmem _ => ih ident labels inner hmem)
          hentries hmerge
      refine ⟨values, hvalues, ?_⟩
      rw [add_comm] at hleaves
      exact add_left_cancel hleaves

/-- Blocks that go into the object of an attribute, on top of a value in it, behind the items of an
array, and beside the object that an attribute and a block have made before. -/
def colliding : Body :=
  [.attribute "foo" (.object ⟨none, [], [], []⟩
      [.mk ⟨none, [], [], []⟩ (.ident "a") (.bool ⟨none, [], [], []⟩ true)]),
    .attribute "xs" (.array ⟨none, [], [], []⟩ [.null ⟨none, [], [], []⟩]),
    .block "foo" ["a"] [.attribute "n" (.null ⟨none, [], [], []⟩)],
    .block "foo" ["b", "c"] [.block "d" [] [.attribute "n" (.string ⟨none, [], [], []⟩ "s")]],
    .block "xs" [] [.attribute "n" (.bool ⟨none, [], [], []⟩ false)],
    .block "foo" [] []]

def collided : Object :=
  [("foo", .array [.object [("a", .array [.boolean true, .object [("n", .null)]]),
      ("b", .object [("c", .object [("d", .object [("n", .string "s")])])])], .object []]),
    ("xs", .array [.null, .object [("n", .boolean false)]])]

theorem leaves_body_colliding :
    (NamesApart colliding ∧ Conversion.body ⟨[], {}⟩ 0 colliding = .ok collided) ∧
    ∃ values, AllConvert ⟨[], {}⟩ 1 colliding values ∧
      (Value.object collided).leaves = (values.map Value.leaves).sum := by
  have hnames : NamesApart colliding := by
    refine .intro (by decide) fun ident labels inner hmem => ?_
    simp only [colliding, List.mem_cons, Structure.block.injEq, List.not_mem_nil, reduceCtorEq,
      or_false, false_or] at hmem
    rcases hmem with ⟨-, -, rfl⟩ | ⟨-, -, rfl⟩ | ⟨-, -, rfl⟩ | ⟨-, -, rfl⟩
    · exact .intro (by decide) (by simp)
    · refine .intro (by decide) fun ident labels inner hmem => ?_
      obtain ⟨-, -, rfl⟩ : ident = "d" ∧ labels = [] ∧
          inner = [.attribute "n" (.string ⟨none, [], [], []⟩ "s")] := by simpa using hmem
      exact .intro (by decide) (by simp)
    · exact .intro (by decide) (by simp)
    · exact .intro (by decide) (by simp)
  exact ⟨⟨hnames, rfl⟩, leaves_body hnames rfl⟩

end Conversion

end HclToJson
