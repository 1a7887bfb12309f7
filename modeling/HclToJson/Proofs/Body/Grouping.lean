import Mathlib.Data.List.Forall2
import HclToJson.Proofs.Body.Attributes
import HclToJson.Proofs.Body.Merge
import HclToJson.Proofs.Object.Grouping

/-!
The object of a body whose names and paths do not collide: the values of the attributes, and the
objects of the blocks grouped by their paths.
-/

namespace HclToJson.Conversion

open Entries Object Body Paths

/-- Every attribute value and every block body converts. -/
structure Converts (c : Conversion) (depth : Nat) (structures : Body) : Prop where
  values : ∀ name e, Structure.attribute name e ∈ structures →
    ∃ value, c.expression depth e = .ok value
  bodies : ∀ ident labels inner, Structure.block ident labels inner ∈ structures →
    ∃ object, c.body depth inner = .ok object

/-- The object of a body, told by what each of its keys and paths holds. The attributes and blocks
are converted at `depth`. -/
structure Grouped (c : Conversion) (depth : Nat) (structures : Body) (out : Object) : Prop where
  /-- The names of the attributes come first, then the identifiers of the blocks. -/
  keys_root : keys out = (attributeNames structures).eraseDups ++
    (nextKeys (blockPaths structures) []).eraseDups
  /-- The last attribute of a name counts. -/
  value : ∀ front name e back, structures = front ++ .attribute name e :: back →
    name ∉ attributeNames back →
    ∃ value, c.expression depth e = .ok value ∧ get? out name = some value
  /-- On the way to the blocks there are objects with the next labels and nothing else. -/
  keys_way : ∀ path, path ≠ [] → Continues (blockPaths structures) path →
    ∃ inner, (Value.object out).at? path = some (.object inner) ∧
      keys inner = (nextKeys (blockPaths structures) path).eraseDups
  /-- The only block with a path stands there itself. -/
  single : ∀ path inner, bodiesAt structures path = [inner] →
    ∃ object, c.body depth inner = .ok object ∧
      (Value.object out).at? path = some (.object object)
  /-- Several blocks with a path stand there as an array, in order. -/
  repeated : ∀ path, 2 ≤ (bodiesAt structures path).length →
    ∃ objects, List.Forall₂ (fun inner object => c.body depth inner = .ok object)
        (bodiesAt structures path) objects ∧
      (Value.object out).at? path = some (.array (objects.map .object))

/-- The blocks that convert, as objects with their paths. -/
def placements (c : Conversion) (depth : Nat) (structures : Body) : Placements :=
  structures.filterMap fun
    | .attribute .. => none
    | .block ident labels inner =>
        match c.body depth inner with
        | .ok object => some (ident :: labels, object)
        | .error _ => none

namespace Converts

variable {c : Conversion} {depth : Nat} {item : Structure} {structures rest : Body}

theorem tail (h : Converts c depth (item :: rest)) : Converts c depth rest where
  values := fun name e hmem => h.values name e (List.mem_cons_of_mem item hmem)
  bodies := fun ident labels inner hmem =>
    h.bodies ident labels inner (List.mem_cons_of_mem item hmem)

/-- Anything that converts has a level left above it. -/
theorem lt_maxDepth (h : Converts c depth structures) (hne : structures ≠ []) :
    depth < c.options.maxDepth := by
  by_contra hlevel
  rw [Nat.not_lt] at hlevel
  rcases structures with _ | ⟨name, e⟩ | ⟨ident, labels, inner⟩
  · exact hne rfl
  · obtain ⟨value, hvalue⟩ := h.values name e List.mem_cons_self
    rw [expression_of_le e hlevel] at hvalue
    cases hvalue
  · obtain ⟨object, hobject⟩ := h.bodies ident labels inner List.mem_cons_self
    rw [body_of_le inner hlevel] at hobject
    cases hobject

theorem attributes_eq_ok (h : Converts c depth structures) :
    ∃ entries, c.attributes depth structures = .ok entries ∧
      entries.map (·.1) = attributeNames structures := by
  induction structures with
  | nil => exact ⟨[], rfl, rfl⟩
  | cons item rest ih =>
      obtain ⟨entries, hentries, hnames⟩ := ih h.tail
      rcases item with ⟨name, e⟩ | ⟨ident, labels, inner⟩
      · obtain ⟨value, hvalue⟩ := h.values name e List.mem_cons_self
        refine ⟨(name, value) :: entries, ?_, by simp [hnames]⟩
        rw [attributes, hvalue, hentries]
        rfl
      · exact ⟨entries, hentries, hnames⟩

theorem attributes_split {front back : Body} {name : String} {e : Expr}
    (h : Converts c depth (front ++ .attribute name e :: back)) :
    ∃ before value after,
      c.attributes depth (front ++ .attribute name e :: back) =
        .ok (before ++ (name, value) :: after) ∧
      c.expression depth e = .ok value ∧ after.map (·.1) = attributeNames back := by
  obtain ⟨entries, hentries, -⟩ := h.attributes_eq_ok
  obtain ⟨before, value, after, rfl, hvalue, hafter⟩ := Conversion.attributes_split hentries
  exact ⟨before, value, after, hentries, hvalue, map_attributes hafter⟩

theorem paths_placements (h : Converts c depth structures) :
    (c.placements depth structures).paths = blockPaths structures := by
  induction structures with
  | nil => rfl
  | cons item rest ih =>
      rcases item with ⟨name, e⟩ | ⟨ident, labels, inner⟩
      · exact ih h.tail
      · obtain ⟨object, hobject⟩ := h.bodies ident labels inner List.mem_cons_self
        simpa [placements, hobject, Placements.paths] using ih h.tail

theorem objectsAt_placements (h : Converts c depth structures) (path : List String) :
    List.Forall₂ (fun inner object => c.body depth inner = .ok object)
      (bodiesAt structures path) ((c.placements depth structures).objectsAt path) := by
  induction structures with
  | nil => exact .nil
  | cons item rest ih =>
      rcases item with ⟨name, e⟩ | ⟨ident, labels, inner⟩
      · exact ih h.tail
      · obtain ⟨object, hobject⟩ := h.bodies ident labels inner List.mem_cons_self
        by_cases hpath : ident :: labels = path
        · simpa [placements, hobject, Placements.objectsAt, bodiesAt, hpath] using ih h.tail
        · simpa [placements, hobject, Placements.objectsAt, bodiesAt, hpath] using ih h.tail

end Converts

section Run

variable {c : Conversion} {depth : Nat} {structures : Body} {base out : Object}
  {placed : Placements}

theorem mergeBlocks_block_of_added {ident : String} {labels : List String} {inner : Body}
    {object : Object} (rest : Body) (hbody : c.body depth inner = .ok object)
    (hadded : (graft ident labels (.object object) out).2 = true) :
    c.mergeBlocks depth (.block ident labels inner :: rest) out =
      c.mergeBlocks depth rest (graft ident labels (.object object) out).1 := by
  rw [mergeBlocks_block, mergeBlock, hbody, place_ok, hadded]
  rfl

/-- The blocks of a body extend the grouping that they find, one after the other. -/
theorem mergeBlocks_groups (hgroups : Groups base placed out) (h : Converts c depth structures)
    (hapart : Apart (placed.paths ++ blockPaths structures))
    (hbase : ∀ key ∈ nextKeys (blockPaths structures) [], key ∉ keys base) :
    ∃ result, c.mergeBlocks depth structures out = (result, .ok ()) ∧
      Groups base (placed ++ c.placements depth structures) result := by
  induction structures generalizing placed out with
  | nil => exact ⟨out, rfl, by simpa [placements] using hgroups⟩
  | cons item rest ih =>
      rcases item with ⟨name, e⟩ | ⟨ident, labels, inner⟩
      · exact ih hgroups h.tail hapart hbase
      · obtain ⟨object, hobject⟩ := h.bodies ident labels inner List.mem_cons_self
        have hfirst : Apart (placed.paths ++ [ident :: labels]) :=
          hapart.mono (List.append_subset.mpr ⟨List.subset_append_left _ _, by simp⟩)
        have hident : ident ∉ keys base := hbase ident (by simp [nextKeys, next?])
        have hadded := hgroups.graft_added hfirst hident (.object object)
        have hrest : Apart ((placed ++ [(ident :: labels, object)]).paths ++ blockPaths rest) := by
          simpa using hapart
        have hbaseRest : ∀ key ∈ nextKeys (blockPaths rest) [], key ∉ keys base := by
          intro key hkey
          exact hbase key (by simpa [nextKeys, next?] using Or.inr hkey)
        obtain ⟨result, hresult, hfinal⟩ :=
          ih (hgroups.graft hfirst hident object) h.tail hrest hbaseRest
        refine ⟨result, ?_, ?_⟩
        · rw [mergeBlocks_block_of_added rest hobject hadded, hresult]
        · simpa [placements, hobject] using hfinal

theorem grouped_of_groups {entries : List (String × Value)} (h : Converts c depth structures)
    (hnames : ∀ name ∈ attributeNames structures, name ∉ nextKeys (blockPaths structures) [])
    (hentries : c.attributes depth structures = .ok entries)
    (hgroups : Groups (ofList entries) (c.placements depth structures) out) :
    Grouped c depth structures out where
  keys_root := by
    obtain ⟨entries', hentries', hmap⟩ := h.attributes_eq_ok
    obtain rfl : entries = entries' := Except.ok.inj (hentries.symm.trans hentries')
    obtain ⟨inner, hinner, hkeys⟩ := hgroups.inside [] (Or.inl rfl)
    obtain rfl : out = inner := by simpa using hinner
    rw [hkeys, h.paths_placements, if_pos rfl, keys_ofList, hmap]
  value := by
    rintro front name e back rfl hback
    obtain ⟨before, value, after, hsplit, hvalue, hmap⟩ := h.attributes_split
    obtain rfl : entries = before ++ (name, value) :: after :=
      Except.ok.inj (hentries.symm.trans hsplit)
    refine ⟨value, hvalue, ?_⟩
    have hname := hnames name (by simp [attributeNames])
    rw [← h.paths_placements] at hname
    rw [hgroups.kept name hname]
    exact get?_ofList before after value (hmap ▸ hback)
  keys_way := by
    intro path hpath hway
    rw [← h.paths_placements] at hway
    obtain ⟨inner, hinner, hkeys⟩ := hgroups.inside path (Or.inr hway)
    refine ⟨inner, hinner, ?_⟩
    rw [hkeys, if_neg hpath, List.nil_append, h.paths_placements]
  single := by
    intro path inner hinner
    have hmem : path ∈ blockPaths structures := mem_blockPaths_iff.mpr (by simp [hinner])
    have hobjects := h.objectsAt_placements path
    rw [hinner, List.forall₂_cons_left_iff] at hobjects
    obtain ⟨object, rest, hobject, hrest, hall⟩ := hobjects
    rw [List.forall₂_nil_left_iff] at hrest
    refine ⟨object, hobject, ?_⟩
    rw [hgroups.leaf path (h.paths_placements ▸ hmem), hall, hrest]
    rfl
  repeated := by
    intro path htwo
    have hmem : path ∈ blockPaths structures := by
      refine mem_blockPaths_iff.mpr fun hnil => ?_
      simp [hnil] at htwo
    have hobjects := h.objectsAt_placements path
    refine ⟨_, hobjects, ?_⟩
    rw [hgroups.leaf path (h.paths_placements ▸ hmem),
      collected_of_two_le (hobjects.length_eq ▸ htwo)]

end Run

/-- If no path of a block is a proper part of another one and no attribute is named like a block,
then a body whose attributes and blocks convert is converted to their grouping. An empty body has
nothing that shows that the limit leaves a level for the body itself. -/
theorem body_grouped {c : Conversion} {depth : Nat} {structures : Body}
    (hapart : Apart (blockPaths structures))
    (hnames : ∀ name ∈ attributeNames structures, name ∉ nextKeys (blockPaths structures) [])
    (h : Converts c (depth + 1) structures)
    (hempty : structures = [] → depth < c.options.maxDepth) :
    ∃ out, c.body depth structures = .ok out ∧ Grouped c (depth + 1) structures out := by
  have hlevel : depth < c.options.maxDepth := by
    by_cases hnil : structures = []
    · exact hempty hnil
    · have := h.lt_maxDepth hnil
      omega
  obtain ⟨entries, hentries, hmap⟩ := h.attributes_eq_ok
  have hbase : ∀ key ∈ nextKeys (blockPaths structures) [], key ∉ keys (ofList entries) := by
    intro key hkey hmem
    rw [keys_ofList, hmap, List.mem_eraseDups] at hmem
    exact hnames key hmem hkey
  obtain ⟨out, hblocks, hgroups⟩ :=
    mergeBlocks_groups (Groups.nil (ofList entries)) h (by simpa [Placements.paths] using hapart)
      hbase
  have hbody := body_eq_ok_iff.mpr ⟨hlevel, entries, hentries, hblocks⟩
  exact ⟨out, hbody, grouped_of_groups h hnames hentries hgroups⟩

/-- Blocks that share labels and a path, with others and an attribute between them. -/
def interleaved : Body :=
  [.block "r" ["a", "x"] [.attribute "n" (.null ⟨none, [], [], []⟩)],
    .block "s" [] [],
    .attribute "v" (.bool ⟨none, [], [], []⟩ true),
    .block "r" ["b"] [],
    .block "r" ["a", "x"] [],
    .block "r" ["a", "y"] []]

theorem body_grouped_interleaved :
    (Apart (blockPaths interleaved) ∧
      (∀ name ∈ attributeNames interleaved, name ∉ nextKeys (blockPaths interleaved) []) ∧
      Converts ⟨[], {}⟩ 1 interleaved ∧ (interleaved = [] → 0 < defaultMaxDepth)) ∧
    ∃ out, Conversion.body ⟨[], {}⟩ 0 interleaved = .ok out ∧
      Grouped ⟨[], {}⟩ 1 interleaved out := by
  have hapart : Apart (blockPaths interleaved) := by
    simp [Apart, blockPaths, interleaved]
  have hnames :
      ∀ name ∈ attributeNames interleaved, name ∉ nextKeys (blockPaths interleaved) [] := by
    simp [attributeNames, nextKeys, next?, blockPaths, interleaved]
  have hconv : Converts ⟨[], {}⟩ 1 interleaved := by
    constructor
    · intro name e hmem
      obtain ⟨rfl, rfl⟩ : name = "v" ∧ e = .bool ⟨none, [], [], []⟩ true := by
        simpa [interleaved] using hmem
      exact ⟨_, rfl⟩
    · intro ident labels inner hmem
      simp only [interleaved, List.mem_cons, Structure.block.injEq, List.not_mem_nil,
        reduceCtorEq, or_false, false_or] at hmem
      rcases hmem with ⟨-, -, rfl⟩ | ⟨-, -, rfl⟩ | ⟨-, -, rfl⟩ | ⟨-, -, rfl⟩ | ⟨-, -, rfl⟩
      · exact ⟨_, rfl⟩
      · exact ⟨_, rfl⟩
      · exact ⟨_, rfl⟩
      · exact ⟨_, rfl⟩
      · exact ⟨_, rfl⟩
  have hempty : interleaved = [] → 0 < defaultMaxDepth := fun _ => by decide
  exact ⟨⟨hapart, hnames, hconv, hempty⟩, body_grouped hapart hnames hconv hempty⟩

/-- Without a level for the body itself an empty body has no object. -/
theorem empty_body_not_grouped :
    ¬ ∀ (c : Conversion) (depth : Nat) (structures : Body), Apart (blockPaths structures) →
      (∀ name ∈ attributeNames structures, name ∉ nextKeys (blockPaths structures) []) →
      Converts c (depth + 1) structures →
      ∃ out, c.body depth structures = .ok out ∧ Grouped c (depth + 1) structures out := by
  intro h
  have hconv : Converts ⟨[], { maxDepth := 0 }⟩ 1 [] :=
    ⟨fun _ _ hmem => by simp at hmem, fun _ _ _ hmem => by simp at hmem⟩
  obtain ⟨out, hout, -⟩ := h ⟨[], { maxDepth := 0 }⟩ 0 [] (by simp [Apart, blockPaths])
    (by simp [attributeNames]) hconv
  rw [body_of_le [] (Nat.le_refl 0)] at hout
  cases hout

end HclToJson.Conversion
