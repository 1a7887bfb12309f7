import HclToJson.Proofs.Object.Graft
import HclToJson.Proofs.Paths

namespace HclToJson.Object

open Entries Value Paths

/-- Objects with their paths, in the order in which they are grafted. -/
abbrev Placements := List (List String × Object)

def Placements.paths (placed : Placements) : List (List String) := placed.map (·.1)

def Placements.objectsAt (placed : Placements) (path : List String) : List Object :=
  placed.filterMap fun (p, inner) => if p = path then some inner else none

/-- The value that objects with the same path have together. -/
def collected : List Object → Value
  | [inner] => .object inner
  | objects => .array (objects.map .object)

/-- What the object `out` is once objects are placed in `base`. -/
structure Groups (base : Object) (placed : Placements) (out : Object) : Prop where
  /-- Inside of an object on the way to others stand the keys at which their paths go on. -/
  inside : ∀ path, path = [] ∨ Continues placed.paths path →
    ∃ inner, (Value.object out).at? path = some (.object inner) ∧
      keys inner = (if path = [] then keys base else []) ++ (nextKeys placed.paths path).eraseDups
  leaf : ∀ path ∈ placed.paths,
    (Value.object out).at? path = some (collected (placed.objectsAt path))
  kept : ∀ key, key ∉ nextKeys placed.paths [] → get? out key = get? base key

theorem stacked_collected {objects : List Object} (inner : Object) (h : objects ≠ []) :
    stacked (some (collected objects)) (.object inner) = collected (objects ++ [inner]) := by
  rcases objects with _ | ⟨first, _ | ⟨second, rest⟩⟩
  · exact absurd rfl h
  · rfl
  · simp [collected, stacked]

theorem collected_of_two_le {objects : List Object} (h : 2 ≤ objects.length) :
    collected objects = .array (objects.map .object) := by
  rcases objects with _ | ⟨first, _ | ⟨second, rest⟩⟩
  · simp at h
  · simp at h
  · rfl

namespace Placements

@[simp] theorem paths_concat (placed : Placements) (path : List String) (inner : Object) :
    paths (placed ++ [(path, inner)]) = placed.paths ++ [path] := by
  simp [paths]

theorem objectsAt_concat_self (placed : Placements) (path : List String) (inner : Object) :
    objectsAt (placed ++ [(path, inner)]) path = placed.objectsAt path ++ [inner] := by
  simp [objectsAt]

theorem objectsAt_concat_of_ne {path other : List String} (placed : Placements) (inner : Object)
    (h : path ≠ other) :
    objectsAt (placed ++ [(path, inner)]) other = placed.objectsAt other := by
  simp [objectsAt, h]

theorem objectsAt_ne_nil_iff {placed : Placements} {path : List String} :
    placed.objectsAt path ≠ [] ↔ path ∈ placed.paths := by
  simp [objectsAt, paths]

end Placements

namespace Groups

variable {base out : Object} {placed : Placements} {path : List String}

theorem nil (base : Object) : Groups base [] base where
  inside := by
    rintro path (rfl | ⟨p, hp, -⟩)
    · exact ⟨base, rfl, by simp [nextKeys, Placements.paths]⟩
    · simp [Placements.paths] at hp
  leaf := by simp [Placements.paths]
  kept := fun _ _ => rfl

theorem at?_eq_none (h : Groups base placed out) (hpath : path ≠ [])
    (hbase : ∀ key, path.head? = some key → key ∉ keys base)
    (hlonger : ∀ p ∈ placed.paths, ¬ path <+: p) (hshorter : ∀ p ∈ placed.paths, ¬ p <+: path) :
    (Value.object out).at? path = none := by
  induction path using List.reverseRecOn with
  | nil => exact absurd rfl hpath
  | append_singleton front key ih =>
      rw [at?_concat]
      by_cases hfront : front = [] ∨ Continues placed.paths front
      · obtain ⟨inner, hinner, hkeys⟩ := h.inside front hfront
        rw [entriesAt_of_at? hinner, get?_eq_none_iff, hkeys]
        intro hmem
        rcases List.mem_append.mp hmem with hmem | hmem
        · by_cases hnil : front = []
          · subst front
            exact hbase key (by simp) (by simpa using hmem)
          · simp [hnil] at hmem
        · obtain ⟨p, hp, hpre⟩ := mem_nextKeys_iff.mp (List.mem_eraseDups.mp hmem)
          exact hlonger p hp hpre
      · rw [not_or] at hfront
        obtain ⟨hne, hends⟩ := hfront
        have hnone : (Value.object out).at? front = none := by
          refine ih hne ?_ ?_ ?_
          · intro first hfirst
            refine hbase first ?_
            rw [List.head?_append, hfirst]
            rfl
          · intro p hp hpre
            refine hends ⟨p, hp, hpre, ?_⟩
            rintro rfl
            exact hshorter front hp (List.prefix_append front [key])
          · intro p hp hpre
            exact hshorter p hp (hpre.trans (List.prefix_append front [key]))
        rw [entriesAt_of_at?_eq_none hnone, get?_nil]

section Step

variable {key : String} {labels : List String}

theorem at?_eq_none_on_path (h : Groups base placed out)
    (hapart : Apart (placed.paths ++ [key :: labels])) (hkey : key ∉ keys base)
    (hpre : path <+: key :: labels) (hne : path ≠ key :: labels) (hnil : path ≠ [])
    (hends : ¬ Continues placed.paths path) :
    (Value.object out).at? path = none := by
  refine h.at?_eq_none hnil ?_ ?_ ?_
  · intro first hfirst
    obtain ⟨rest, hrest⟩ := hpre
    have hhead : some first = some key := by
      rw [← hfirst, ← List.head?_cons (a := key) (l := labels), ← hrest, List.head?_append, hfirst]
      rfl
    rw [Option.some.inj hhead]
    exact hkey
  · intro p hp hlonger
    by_cases heq : path = p
    · subst p
      exact hne (hapart path (by simp [hp]) (key :: labels) (by simp) hpre)
    · exact hends ⟨p, hp, hlonger, heq⟩
  · intro p hp hshorter
    have hp' : p = key :: labels :=
      hapart p (by simp [hp]) (key :: labels) (by simp) (hshorter.trans hpre)
    subst p
    exact hne (hpre.eq_of_length_le hshorter.length_le)

/-- On the way to a new place the keys are those of the placed objects, also where there is no
object yet. -/
theorem keys_entriesAt (h : Groups base placed out)
    (hapart : Apart (placed.paths ++ [key :: labels])) (hkey : key ∉ keys base)
    (hpre : path <+: key :: labels) (hne : path ≠ key :: labels) :
    keys ((Value.object out).entriesAt path) =
      (if path = [] then keys base else []) ++ (nextKeys placed.paths path).eraseDups := by
  by_cases hway : path = [] ∨ Continues placed.paths path
  · obtain ⟨inner, hinner, hkeys⟩ := h.inside path hway
    rw [entriesAt_of_at? hinner, hkeys]
  · rw [not_or] at hway
    obtain ⟨hnil, hends⟩ := hway
    rw [entriesAt_of_at?_eq_none (h.at?_eq_none_on_path hapart hkey hpre hne hnil hends)]
    have hnext : nextKeys placed.paths path = [] := by
      refine List.eq_nil_iff_forall_not_mem.mpr fun label hlabel => ?_
      obtain ⟨p, hp, hlonger⟩ := mem_nextKeys_iff.mp hlabel
      refine hends ⟨p, hp, (List.prefix_append path [label]).trans hlonger, ?_⟩
      rintro rfl
      have hlength := hlonger.length_le
      rw [List.length_append, List.length_singleton] at hlength
      omega
    simp [hnil, hnext]

theorem graft_added (h : Groups base placed out)
    (hapart : Apart (placed.paths ++ [key :: labels])) (hkey : key ∉ keys base) (value : Value) :
    (graft key labels value out).2 = true := by
  refine graft_added_iff.mpr fun path old hpre hne hold => ?_
  by_cases hway : path = [] ∨ Continues placed.paths path
  · obtain ⟨inner, hinner, -⟩ := h.inside path hway
    exact ⟨inner, Option.some.inj (hold.symm.trans hinner)⟩
  · rw [not_or] at hway
    rw [h.at?_eq_none_on_path hapart hkey hpre hne hway.1 hway.2] at hold
    simp at hold

theorem at?_eq_none_of_not_mem (h : Groups base placed out)
    (hapart : Apart (placed.paths ++ [key :: labels])) (hkey : key ∉ keys base)
    (hnew : key :: labels ∉ placed.paths) :
    (Value.object out).at? (key :: labels) = none := by
  refine h.at?_eq_none (List.cons_ne_nil key labels) ?_ ?_ ?_
  · intro first hfirst
    obtain rfl : key = first := by simpa using hfirst
    exact hkey
  · intro p hp hlonger
    exact hnew (hapart (key :: labels) (by simp) p (by simp [hp]) hlonger ▸ hp)
  · intro p hp hshorter
    exact hnew (hapart p (by simp [hp]) (key :: labels) (by simp) hshorter ▸ hp)

theorem leaf_graft (h : Groups base placed out)
    (hapart : Apart (placed.paths ++ [key :: labels])) (hkey : key ∉ keys base) (inner : Object)
    (hpath : path ∈ (placed ++ [(key :: labels, inner)]).paths) :
    (Value.object (graft key labels (.object inner) out).1).at? path =
      some (collected ((placed ++ [(key :: labels, inner)]).objectsAt path)) := by
  rw [Placements.paths_concat] at hpath
  by_cases heq : path = key :: labels
  · subst path
    rw [at?_graft_self (h.graft_added hapart hkey _), Placements.objectsAt_concat_self]
    by_cases hold : key :: labels ∈ placed.paths
    · rw [h.leaf _ hold, stacked_collected inner (Placements.objectsAt_ne_nil_iff.mpr hold)]
    · have hnone : placed.objectsAt (key :: labels) = [] := by
        by_contra hsome
        exact hold (Placements.objectsAt_ne_nil_iff.mp hsome)
      rw [h.at?_eq_none_of_not_mem hapart hkey hold, hnone]
      rfl
  · have hmem : path ∈ placed.paths := by simpa [heq] using hpath
    have hfront : ¬ path <+: key :: labels := fun hpre =>
      heq (hapart path (by simp [hmem]) _ (by simp) hpre)
    have hback : ¬ key :: labels <+: path := fun hpre =>
      heq (hapart _ (by simp) path (by simp [hmem]) hpre).symm
    rw [at?_graft_of_branching hfront hback, Placements.objectsAt_concat_of_ne _ _ (Ne.symm heq),
      h.leaf path hmem]

theorem inside_graft (h : Groups base placed out)
    (hapart : Apart (placed.paths ++ [key :: labels])) (hkey : key ∉ keys base) (inner : Object)
    (hpath : path = [] ∨ Continues (placed ++ [(key :: labels, inner)]).paths path) :
    ∃ entries, (Value.object (graft key labels (.object inner) out).1).at? path =
        some (.object entries) ∧
      keys entries = (if path = [] then keys base else []) ++
        (nextKeys (placed ++ [(key :: labels, inner)]).paths path).eraseDups := by
  rw [Placements.paths_concat] at hpath ⊢
  by_cases hpre : path <+: key :: labels ∧ path ≠ key :: labels
  · -- `path` is on the way to the new place: the next key comes last if it is new there.
    obtain ⟨⟨rest, hrest⟩, hne⟩ := hpre
    rcases rest with _ | ⟨label, rest⟩
    · exact absurd (by simpa using hrest) hne
    obtain ⟨entries, hentries, hkeys⟩ :=
      keys_graft_on_path (h.graft_added hapart hkey (.object inner)) hrest.symm
    refine ⟨entries, hentries, ?_⟩
    have hnext : next? path (key :: labels) = some label :=
      next?_eq_some_iff.mpr ⟨rest, by simpa using hrest⟩
    have hlabel : label ∉ (if path = [] then keys base else []) := by
      by_cases hnil : path = []
      · subst path
        obtain ⟨rfl, -⟩ := List.cons.inj hrest
        simpa using hkey
      · simp [hnil]
    rw [hkeys, h.keys_entriesAt hapart hkey ⟨label :: rest, hrest⟩ hne, withKey_append _ hlabel,
      nextKeys_concat_of_next? _ hnext, eraseDups_concat]
  · -- `path` branches off the new place, so what it leads to was there before.
    have hnil : path ≠ [] := by
      rintro rfl
      exact hpre ⟨List.nil_prefix, (List.cons_ne_nil key labels).symm⟩
    obtain ⟨p, hp, hlonger, hne⟩ := hpath.resolve_left hnil
    have hp' : p ≠ key :: labels := by
      rintro rfl
      exact hpre ⟨hlonger, hne⟩
    have hmem : p ∈ placed.paths := by simpa [hp'] using hp
    have hback : ¬ key :: labels <+: path := fun hnew =>
      hp' (hapart _ (by simp) p (by simp [hmem]) (hnew.trans hlonger)).symm
    have hfront : ¬ path <+: key :: labels := by
      intro hnew
      by_cases heq : path = key :: labels
      · exact hback (heq ▸ List.prefix_refl path)
      · exact hpre ⟨hnew, heq⟩
    rw [at?_graft_of_branching hfront hback, nextKeys_concat_of_not_prefix _ hfront]
    exact h.inside path (Or.inr ⟨p, hmem, hlonger, hne⟩)

theorem graft (h : Groups base placed out) (hapart : Apart (placed.paths ++ [key :: labels]))
    (hkey : key ∉ keys base) (inner : Object) :
    Groups base (placed ++ [(key :: labels, inner)])
      (Object.graft key labels (.object inner) out).1 where
  inside := fun _ hpath => h.inside_graft hapart hkey inner hpath
  leaf := fun _ hpath => h.leaf_graft hapart hkey inner hpath
  kept := by
    intro other hother
    have hnext : next? [] (key :: labels) = some key := by simp [next?]
    rw [Placements.paths_concat, nextKeys_concat_of_next? _ hnext, List.mem_append, not_or] at hother
    have hne : other ≠ key := by simpa using hother.2
    rw [get?_graft_of_ne labels _ out hne, h.kept other hother.1]

end Step

end Groups

end HclToJson.Object
