import HclToJson.Convert.Body

namespace HclToJson.Conversion

variable {c : Conversion} {depth : Nat}

theorem ok_bind {α β : Type} (a : α) (f : α → Except ConvertError β) :
    (Except.ok a : Except ConvertError α) >>= f = f a := rfl

theorem error_bind {α β : Type} (e : ConvertError) (f : α → Except ConvertError β) :
    (Except.error e : Except ConvertError α) >>= f = .error e := rfl

theorem bind_eq_ok_iff {α β : Type} {x : Except ConvertError α} {f : α → Except ConvertError β}
    {b : β} : x >>= f = .ok b ↔ ∃ a, x = .ok a ∧ f a = .ok b := by
  cases x with
  | error e => exact ⟨nofun, nofun⟩
  | ok a => exact ⟨fun h => ⟨a, rfl, h⟩, fun ⟨_, hx, h⟩ => Except.ok.inj hx ▸ h⟩

theorem descend_eq (c : Conversion) (depth : Nat) :
    c.descend depth = if depth < c.options.maxDepth then .ok (depth + 1)
      else .error (.depthExceeded c.options.maxDepth) := rfl

theorem descend_of_lt (h : depth < c.options.maxDepth) : c.descend depth = .ok (depth + 1) := by
  rw [descend_eq, if_pos h]

theorem descend_of_le (h : c.options.maxDepth ≤ depth) :
    c.descend depth = .error (.depthExceeded c.options.maxDepth) := by
  rw [descend_eq, if_neg (Nat.not_lt.mpr h)]

theorem descend_eq_ok {below : Nat} (h : c.descend depth = .ok below) : below = depth + 1 := by
  rw [descend_eq] at h
  split at h
  · cases h
    rfl
  · cases h

theorem expression_of_le (e : Expr) (h : c.options.maxDepth ≤ depth) :
    c.expression depth e = .error (.depthExceeded c.options.maxDepth) := by
  unfold expression
  rw [descend_of_le h]
  split <;> rfl

theorem stringPart_of_le (e : Expr) (h : c.options.maxDepth ≤ depth) :
    c.stringPart depth e = .error (.depthExceeded c.options.maxDepth) := by
  unfold stringPart
  rw [descend_of_le h]
  split <;> rfl

theorem body_of_le (structures : Body) (h : c.options.maxDepth ≤ depth) :
    c.body depth structures = .error (.depthExceeded c.options.maxDepth) := by
  unfold body
  rw [descend_of_le h]
  rfl

/-- A step down and what follows it, if that fails by itself where there are no levels left. -/
theorem descend_bind {run : Nat → Except ConvertError α}
    (h : ∀ below, c.options.maxDepth ≤ below →
      run below = .error (.depthExceeded c.options.maxDepth)) :
    c.descend depth >>= run = run (depth + 1) := by
  by_cases hlevel : depth < c.options.maxDepth
  · rw [descend_of_lt hlevel, ok_bind]
  · rw [Nat.not_lt] at hlevel
    rw [descend_of_le hlevel, error_bind, h (depth + 1) (Nat.le_succ_of_le hlevel)]

end HclToJson.Conversion
