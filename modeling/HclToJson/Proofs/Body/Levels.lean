import HclToJson.Proofs.Body.Merge
import HclToJson.Proofs.Convert.Words
import HclToJson.Proofs.Syntax.Bare

namespace HclToJson

namespace Body

/-- The levels that the values of the attributes of a body need. -/
def attributesLevels : Body → Nat
  | [] => 0
  | .attribute _ e :: rest => max e.levels (attributesLevels rest)
  | .block .. :: rest => attributesLevels rest

mutual

/-- The levels that a block needs: one for its body, and those of the attributes and blocks in it. -/
def blockLevels : Structure → Nat
  | .attribute .. => 0
  | .block _ _ inner => max (attributesLevels inner) (blocksLevels inner) + 1
  termination_by structural item => item

def blocksLevels : Body → Nat
  | [] => 0
  | item :: rest => max (blockLevels item) (blocksLevels rest)
  termination_by structural structures => structures

end

/-- The levels that a body needs: one for itself, and those of its attributes and blocks. -/
def levels (structures : Body) : Nat :=
  max (attributesLevels structures) (blocksLevels structures) + 1

end Body

namespace Conversion

open Object Body

/-- What is put into an object, if there is no error. -/
def finished : Object × Except ConvertError Unit → Except ConvertError Object
  | (out, result) => do
      result
      return out

theorem finished_mergeBlocks_block {δ : Type} [Counter δ] (c : Conversion) (depth : δ) (ident : String)
    (labels : List String) (inner rest : Body) (out : Object) :
    finished (c.mergeBlocks depth (.block ident labels inner :: rest) out) =
      c.body depth inner >>= fun object =>
        if (graft ident labels (.object object) out).2 then
          finished (c.mergeBlocks depth rest (graft ident labels (.object object) out).1)
        else .error (.mergeConflict (ident :: labels)) := by
  rw [mergeBlocks_block, mergeBlock]
  cases c.body depth inner with
  | error e => rfl
  | ok object =>
      rw [place_ok]
      change _ = if (graft ident labels (.object object) out).2 = true then _ else _
      cases (graft ident labels (.object object) out).2 <;> rfl

namespace Law

variable {δ : Type} [Counter δ] {c : Conversion} {P : {α : Type} → Nat → LeveledBy δ α → Prop}

theorem attributes (law : Law c P) (structures : Body) :
    P (attributesLevels structures) fun limit depth =>
      (c.limited limit).attributes depth structures := by
  induction structures with
  | nil => exact law.const (inLimit_pure [])
  | cons item rest ih =>
      rcases item with ⟨name, e⟩ | ⟨ident, labels, inner⟩
      · simp only [Conversion.attributes, attributesLevels]
        exact law.bind (law.values.1 0 e) fun value => law.map ih _
      · exact ih

mutual

theorem blockBody (law : Law c P) : (item : Structure) →
    P (blockLevels item) fun limit depth => (c.limited limit).blockBody depth item
  | .attribute .. => law.const (inLimit_pure [])
  | .block ident labels inner => by
      simp only [blockBody_block, blockLevels]
      exact law.below (law.bind (law.attributes inner) fun entries =>
        law.mergeBlocks inner (Entries.ofList entries))

theorem mergeBlocks (law : Law c P) : (structures : Body) → (out : Object) →
    P (blocksLevels structures) fun limit depth =>
      finished ((c.limited limit).mergeBlocks depth structures out)
  | [], out => law.const (inLimit_pure out)
  | .attribute name e :: rest, out => by
      simpa only [Conversion.mergeBlocks, blocksLevels, blockLevels, Nat.zero_max] using
        law.mergeBlocks rest out
  | .block ident labels inner :: rest, out => by
      have hblock := law.blockBody (.block ident labels inner)
      simp only [blockBody_block] at hblock
      simp only [finished_mergeBlocks_block, blocksLevels]
      exact law.bind hblock fun object => law.ite (law.mergeBlocks rest _) _ nofun

end

/-- What has a law holds of every body, with the levels that the body needs. -/
theorem body (law : Law c P) (structures : Body) :
    P structures.levels fun limit depth => (c.limited limit).body depth structures :=
  law.below (law.bind (law.attributes structures) fun entries =>
    law.mergeBlocks structures (Entries.ofList entries))

end Law

/-- `b { a = { "k${true}" = "${[null]}" } }` -/
def nested : Body :=
  [.block "b" [] [.attribute "a" (.object .nowhere
    [.mk .nowhere
      (.expr (.template .nowhere
        [.literal "k", .interpolation .nowhere ⟨false, false⟩ (.bool .nowhere true)]))
      (.template .nowhere
        [.interpolation .nowhere ⟨false, false⟩ (.array .nowhere [.null .nowhere])])])]]

def nestedValue : Object := [("b", .object [("a", .object [("ktrue", .array [.null])])])]

end Conversion

end HclToJson
