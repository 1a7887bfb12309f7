namespace HclToJson.Paths

/-- No path is a proper part of another one. -/
def Apart (paths : List (List String)) : Prop :=
  ∀ p ∈ paths, ∀ q ∈ paths, p <+: q → p = q

/-- A path continues in a list of paths: one of them is longer and starts with it. -/
def Continues (paths : List (List String)) (path : List String) : Prop :=
  ∃ p ∈ paths, path <+: p ∧ path ≠ p

def next? (path longer : List String) : Option String :=
  if path <+: longer then longer[path.length]? else none

/-- The keys at which the paths of a list go on from a path, in order. -/
def nextKeys (paths : List (List String)) (path : List String) : List String :=
  paths.filterMap (next? path)

theorem Apart.mono {paths more : List (List String)} (h : Apart more) (hsub : paths ⊆ more) :
    Apart paths :=
  fun p hp q hq => h p (hsub hp) q (hsub hq)

theorem next?_eq_some_iff {path longer : List String} {key : String} :
    next? path longer = some key ↔ path ++ [key] <+: longer := by
  constructor
  · intro h
    unfold next? at h
    split at h
    · rename_i hpre
      obtain ⟨rest, rfl⟩ := hpre
      rcases rest with _ | ⟨first, rest⟩
      · simp at h
      · have hfirst : first = key := by simpa using h
        exact ⟨rest, by simp [hfirst]⟩
    · simp at h
  · rintro ⟨rest, rfl⟩
    simp [next?]

theorem next?_eq_none {path longer : List String} (h : ¬ path <+: longer) :
    next? path longer = none := by
  simp [next?, h]

theorem mem_nextKeys_iff {paths : List (List String)} {path : List String} {key : String} :
    key ∈ nextKeys paths path ↔ ∃ p ∈ paths, path ++ [key] <+: p := by
  simp [nextKeys, next?_eq_some_iff]

theorem nextKeys_concat_of_next? {path longer : List String} {key : String}
    (paths : List (List String)) (h : next? path longer = some key) :
    nextKeys (paths ++ [longer]) path = nextKeys paths path ++ [key] := by
  simp [nextKeys, h]

theorem nextKeys_concat_of_not_prefix {path longer : List String} (paths : List (List String))
    (h : ¬ path <+: longer) :
    nextKeys (paths ++ [longer]) path = nextKeys paths path := by
  simp [nextKeys, next?_eq_none h]

end HclToJson.Paths
