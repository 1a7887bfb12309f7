import HclToJson.Document
import HclToJson.Proofs.Body.Levels
import HclToJson.Proofs.Convert.Nesting

namespace HclToJson

namespace Body

mutual

def blockLabels : Structure → Nat
  | .attribute .. => 0
  | .block _ labels inner => labels.length + nestedLabels inner
  termination_by structural item => item

/-- The greatest number of labels that blocks within one another have together. -/
def nestedLabels : Body → Nat
  | [] => 0
  | item :: rest => max (blockLabels item) (nestedLabels rest)
  termination_by structural structures => structures

end

end Body

namespace Conversion

open Body

variable {c : Conversion}

theorem attributes_fit (depth : Nat) (structures : Body) :
    Gives (fun entries => ∀ entry ∈ entries, Fits (c.room depth) entry.2)
      (c.attributes depth structures) := by
  induction structures with
  | nil => exact .pure (by simp)
  | cons item rest ih =>
      rcases item with ⟨name, e⟩ | ⟨ident, labels, inner⟩
      · rw [attributes]
        refine (values_fit.1 depth e).bind fun value hvalue => ?_
        refine ih.bind fun entries hentries => .pure ?_
        exact List.forall_mem_cons.mpr ⟨hvalue, hentries⟩
      · exact ih

mutual

theorem blockBody_fits (depth : Nat) : (item : Structure) → ∀ ident labels inner,
    item = .block ident labels inner →
    Gives (fun object => Fits (c.room depth + nestedLabels inner) (.object object))
      (c.body depth inner)
  | .attribute .. => nofun
  | .block ident labels inner => by
      rintro _ _ _ ⟨⟩
      refine (gives_descend depth).bind fun below hbelow => ?_
      refine (attributes_fit below inner).bind fun entries hentries => ?_
      -- The attributes need none of the levels that the labels take.
      have hout : ∀ entry ∈ Entries.ofList entries,
          Fits (c.room below + nestedLabels inner) entry.2 :=
        Entries.forall_mem_ofList fun entry hmem => (hentries entry hmem).mono (by omega)
      intro object hobject
      rw [hbelow, Nat.add_right_comm]
      exact .object (mergeBlocks_fit below inner _ _ (Nat.le_refl _) hout object hobject)

theorem mergeBlocks_fit (depth : Nat) : (structures : Body) → ∀ (n : Nat) (out : Object),
    c.room depth + nestedLabels structures ≤ n → (∀ entry ∈ out, Fits n entry.2) →
    Gives (fun result => ∀ entry ∈ result, Fits n entry.2)
      (finished (c.mergeBlocks depth structures out))
  | [] => fun _ _ _ hout => .pure hout
  | .attribute name e :: rest => by
      intro n out hle hout
      rw [nestedLabels, blockLabels, Nat.zero_max] at hle
      exact mergeBlocks_fit depth rest n out hle hout
  | .block ident labels inner :: rest => by
      intro n out hle hout
      have hblock := blockBody_fits depth (.block ident labels inner) _ _ _ rfl
      rw [nestedLabels, blockLabels] at hle
      rw [finished_mergeBlocks_block]
      refine hblock.bind fun object hobject => ?_
      obtain ⟨k, rfl⟩ : ∃ k, n = k + labels.length := ⟨n - labels.length, by omega⟩
      have hgraft : ∀ entry ∈ (Object.graft ident labels (.object object) out).1,
          Fits (k + labels.length) entry.2 := Fits.graft hout (hobject.mono (by omega))
      split
      · exact mergeBlocks_fit depth rest _ _ (by omega) hgraft
      · exact nofun

end

theorem body_fits (depth : Nat) (structures : Body) :
    Gives (fun object => Fits (c.room depth + nestedLabels structures) (.object object))
      (c.body depth structures) :=
  blockBody_fits depth (.block "" [] structures) _ _ _ rfl

end Conversion

namespace Document

open Body

/-- The object of a document is nested less than twice as deep as the limit and the labels of its
blocks come to: an object and an array for each counted level, and for each label on the way. -/
theorem nesting_convert_lt {document : Document} {options : Options} {out : Object}
    (h : document.convert options = .ok out) :
    (Value.object out).nesting < 2 * (options.maxDepth + nestedLabels document.body) := by
  have hfits := Conversion.body_fits (c := ⟨document.source, options⟩) 0 document.body out h
  exact hfits.nesting_object_lt

/-- Blocks whose paths are prefixes of one another, from the longest one down. -/
def stackedBlocks : Body :=
  [.block "a" ["b", "c"] [], .block "a" ["b", "c"] [], .block "a" ["b"] [], .block "a" [] []]

def stackedObject : Object :=
  [("a", .array [.object [("b", .array [.object [("c", .array [.object [], .object []])],
    .object []])], .object []])]

/-- With two levels and two labels the nesting is 7, the greatest that there can be. -/
theorem nesting_convert_lt_stackedBlocks :
    convert ⟨[], stackedBlocks⟩ { maxDepth := 2 } = .ok stackedObject ∧
      (Value.object stackedObject).nesting = 7 ∧ nestedLabels stackedBlocks = 2 ∧
      (Value.object stackedObject).nesting < 2 * (2 + nestedLabels stackedBlocks) := by
  have hconvert : convert ⟨[], stackedBlocks⟩ { maxDepth := 2 } = .ok stackedObject := rfl
  exact ⟨hconvert, rfl, rfl, nesting_convert_lt hconvert⟩

/-- Labels take the nesting beyond twice the limit. -/
theorem labels_pass_limit :
    ∃ document out, parse? "a \"b\" \"c\" \"d\" \x7b\x7d\n" = some document ∧
      document.convert { maxDepth := 2 } = .ok out ∧ 2 * 2 < (Value.object out).nesting := by
  have hnested : ((parse? "a \"b\" \"c\" \"d\" \x7b\x7d\n").bind fun document =>
      (document.convert { maxDepth := 2 }).toOption).map (fun out => (Value.object out).nesting) =
        some 5 := by decide +kernel
  obtain ⟨out, hout, hnesting⟩ := Option.map_eq_some_iff.mp hnested
  obtain ⟨document, hdocument, hout⟩ := Option.bind_eq_some_iff.mp hout
  have hconvert : document.convert { maxDepth := 2 } = .ok out := by
    cases hresult : document.convert { maxDepth := 2 } with
    | error error =>
        rw [hresult] at hout
        cases hout
    | ok object =>
        rw [hresult] at hout
        rw [Option.some.inj hout]
  exact ⟨document, out, hdocument, hconvert, by rw [hnesting]; decide⟩

end Document

end HclToJson
