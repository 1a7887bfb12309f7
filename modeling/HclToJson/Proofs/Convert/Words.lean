import HclToJson.Proofs.Convert.Levels

namespace HclToJson.Conversion

def greatestWord : Nat := 0xFFFF_FFFF_FFFF_FFFF

theorem toNat_add_one {depth : UInt64} (h : depth.toNat < greatestWord) :
    (depth + 1).toNat = depth.toNat + 1 := by
  have hsum : depth.toNat + 1 < 2 ^ 64 := by
    unfold greatestWord at h
    omega
  rw [UInt64.toNat_add]
  exact Nat.mod_eq_of_lt hsum

theorem word_descend_bind (c : Conversion) {limit : Nat} {depth : UInt64}
    (hlimit : limit < greatestWord) (hdepth : depth.toNat ≤ limit)
    (next : UInt64 → Except ConvertError α) :
    (c.limited limit).descend depth >>= next =
      if depth.toNat < limit then next (depth + 1) else .error (.depthExceeded limit) := by
  have hdescend : (c.limited limit).descend depth =
      if (depth + 1).toNat ≤ limit then .ok (depth + 1) else .error (.depthExceeded limit) := rfl
  rw [hdescend, toNat_add_one (Nat.lt_of_le_of_lt hdepth hlimit)]
  by_cases hlevel : depth.toNat < limit
  · rw [if_pos (Nat.succ_le_of_lt hlevel), if_pos hlevel, ok_bind]
  · rw [if_neg (Nat.not_le.mpr (Nat.lt_succ_of_le (Nat.le_of_not_lt hlevel))), if_neg hlevel,
      error_bind]

/-- A conversion needs `n` levels for its value: up to a limit that is no greatest word it has that
value or the error, and it never has another one. -/
structure WordExactly (n : Nat) (run : LeveledBy UInt64 α) (value : α) : Prop where
  eq_ite : ∀ {limit : Nat} {depth : UInt64}, limit < greatestWord → depth.toNat ≤ limit →
    run limit depth =
      if depth.toNat + n ≤ limit then .ok value else .error (.depthExceeded limit)
  unique : ∀ {limit : Nat} {depth : UInt64} {other : α}, run limit depth = .ok other →
    other = value

namespace WordExactly

variable {n m : Nat}

theorem pure (value : α) :
    WordExactly 0 (fun _ _ => (Pure.pure value : Except ConvertError α)) value where
  eq_ite _ hdepth := (if_pos hdepth).symm
  unique h := (Except.ok.inj h).symm

theorem bind {x : LeveledBy UInt64 α} {f : α → LeveledBy UInt64 β} {a : α} {b : β}
    (hx : WordExactly n x a) (hf : WordExactly m (f a) b) :
    WordExactly (max n m) (fun limit depth => x limit depth >>= fun a => f a limit depth) b where
  eq_ite := by
    intro limit depth hlimit hdepth
    rw [hx.eq_ite hlimit hdepth]
    by_cases hn : depth.toNat + n ≤ limit
    · have hmax : depth.toNat + max n m ≤ limit ↔ depth.toNat + m ≤ limit := by omega
      rw [if_pos hn, ok_bind, hf.eq_ite hlimit hdepth]
      simp only [hmax]
    · rw [if_neg hn, if_neg (by omega), error_bind]
  unique := by
    intro limit depth other h
    obtain ⟨a', ha', hb⟩ := bind_eq_ok_iff.mp h
    rw [hx.unique ha'] at hb
    exact hf.unique hb

theorem below {c : Conversion} {run : LeveledBy UInt64 α} {value : α}
    (h : WordExactly n run value) :
    WordExactly (n + 1) (fun limit depth => (c.limited limit).descend depth >>= run limit) value where
  eq_ite := by
    intro limit depth hlimit hdepth
    rw [word_descend_bind c hlimit hdepth]
    by_cases hlevel : depth.toNat < limit
    · have hnext := toNat_add_one (Nat.lt_of_le_of_lt hdepth hlimit)
      have hlevels : (depth + 1).toNat + n ≤ limit ↔ depth.toNat + (n + 1) ≤ limit := by omega
      rw [if_pos hlevel, h.eq_ite hlimit (by omega)]
      simp only [hlevels]
    · rw [if_neg hlevel, if_neg (by omega)]
  unique := by
    intro limit depth other hother
    obtain ⟨below, -, hrun⟩ := bind_eq_ok_iff.mp hother
    exact h.unique hrun

end WordExactly

/-- A conversion has one value, for which it needs exactly `n` levels, or never has any. -/
def WordSettled (n : Nat) (run : LeveledBy UInt64 α) : Prop :=
  (∃ value, WordExactly n run value) ∨ ∀ limit depth value, run limit depth ≠ .ok value

namespace WordSettled

variable {n m : Nat}

theorem const (x : Except ConvertError α) : WordSettled 0 fun _ _ => x := by
  cases x with
  | error e => exact Or.inr fun _ _ _ => nofun
  | ok value => exact Or.inl ⟨value, .pure value⟩

theorem bind {x : LeveledBy UInt64 α} {f : α → LeveledBy UInt64 β} (hx : WordSettled n x)
    (hf : ∀ a, WordSettled m (f a)) :
    WordSettled (max n m) fun limit depth => x limit depth >>= fun a => f a limit depth := by
  rcases hx with ⟨a, hx⟩ | hx
  · rcases hf a with ⟨b, hf⟩ | hf
    · exact Or.inl ⟨b, hx.bind hf⟩
    · refine Or.inr fun limit depth b h => ?_
      obtain ⟨a', ha', hb⟩ := bind_eq_ok_iff.mp h
      rw [hx.unique ha'] at hb
      exact hf limit depth b hb
  · refine Or.inr fun limit depth b h => ?_
    obtain ⟨a, ha, -⟩ := bind_eq_ok_iff.mp h
    exact hx limit depth a ha

theorem below {c : Conversion} {run : LeveledBy UInt64 α} (h : WordSettled n run) :
    WordSettled (n + 1) fun limit depth => (c.limited limit).descend depth >>= run limit := by
  rcases h with ⟨value, h⟩ | h
  · exact Or.inl ⟨value, h.below⟩
  · refine Or.inr fun limit depth value hvalue => ?_
    obtain ⟨below, -, hrun⟩ := bind_eq_ok_iff.mp hvalue
    exact h limit below value hrun

theorem law (c : Conversion) : Law c WordSettled := ⟨fun _ => const _, bind, below⟩

/-- All values of a conversion that is settled are the same one. -/
theorem exactly {run : LeveledBy UInt64 α} (h : WordSettled n run) {limit : Nat} {depth : UInt64}
    {value : α} (hvalue : run limit depth = .ok value) : WordExactly n run value := by
  rcases h with ⟨value', h⟩ | h
  · rw [h.unique hvalue]
    exact h
  · exact absurd hvalue (h limit depth value)

end WordSettled

end HclToJson.Conversion
