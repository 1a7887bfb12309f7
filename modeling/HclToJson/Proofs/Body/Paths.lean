import HclToJson.Syntax

namespace HclToJson.Body

def attributeNames (structures : Body) : List String :=
  structures.filterMap fun
    | .attribute name _ => some name
    | .block .. => none

/-- The paths of the blocks, in order: the identifier and then the labels. -/
def blockPaths (structures : Body) : List (List String) :=
  structures.filterMap fun
    | .attribute .. => none
    | .block ident labels _ => some (ident :: labels)

/-- The bodies of the blocks with a path, in order. -/
def bodiesAt (structures : Body) (path : List String) : List Body :=
  structures.filterMap fun
    | .attribute .. => none
    | .block ident labels inner => if ident :: labels = path then some inner else none

@[simp] theorem attributeNames_attribute (name : String) (e : Expr) (rest : Body) :
    attributeNames (.attribute name e :: rest) = name :: attributeNames rest := rfl

@[simp] theorem attributeNames_block (ident : String) (labels : List String) (inner rest : Body) :
    attributeNames (.block ident labels inner :: rest) = attributeNames rest := rfl

theorem attributeNames_append (front back : Body) :
    attributeNames (front ++ back) = attributeNames front ++ attributeNames back :=
  List.filterMap_append

@[simp] theorem blockPaths_attribute (name : String) (e : Expr) (rest : Body) :
    blockPaths (.attribute name e :: rest) = blockPaths rest := rfl

@[simp] theorem blockPaths_block (ident : String) (labels : List String) (inner rest : Body) :
    blockPaths (.block ident labels inner :: rest) = (ident :: labels) :: blockPaths rest := rfl

theorem mem_blockPaths_iff {structures : Body} {path : List String} :
    path ∈ blockPaths structures ↔ bodiesAt structures path ≠ [] := by
  induction structures with
  | nil => simp [blockPaths, bodiesAt]
  | cons item rest ih =>
      rcases item with ⟨name, e⟩ | ⟨ident, labels, inner⟩
      · simpa [bodiesAt] using ih
      · by_cases h : ident :: labels = path
        · simp [bodiesAt, h]
        · simpa [bodiesAt, h, Ne.symm h] using ih

end HclToJson.Body
