import HclToJson.Grammar.Parser

namespace HclToJson.Parser

variable {α β : Type}

theorem bind_eq (p : Parser α) (f : α → Parser β) (cursor : Cursor) :
    (p >>= f) cursor =
      match p cursor with
      | .ok (value, cursor') => f value cursor'
      | .error refusal => .error refusal := by
  change (p cursor >>= fun result => f result.1 result.2) = _
  cases p cursor <;> rfl

theorem bind_eq_ok {p : Parser α} {f : α → Parser β} {cursor : Cursor} {result : β × Cursor} :
    (p >>= f) cursor = .ok result ↔
      ∃ value cursor', p cursor = .ok (value, cursor') ∧ f value cursor' = .ok result := by
  rw [bind_eq]
  cases p cursor with
  | error refusal => simp
  | ok first =>
      constructor
      · intro h
        exact ⟨first.1, first.2, rfl, h⟩
      · intro ⟨value, cursor', hfirst, h⟩
        cases hfirst
        exact h

theorem map_eq (f : α → β) (p : Parser α) (cursor : Cursor) :
    (f <$> p) cursor =
      match p cursor with
      | .ok (value, cursor') => .ok (f value, cursor')
      | .error refusal => .error refusal := by
  change (p cursor >>= fun result => pure (f result.1, result.2)) = _
  cases p cursor <;> rfl

theorem discard_eq (p : Parser α) (cursor : Cursor) :
    (discard p) cursor =
      match p cursor with
      | .ok (_, cursor') => .ok (⟨⟩, cursor')
      | .error refusal => .error refusal :=
  map_eq _ p cursor

theorem pure_eq (value : α) (cursor : Cursor) :
    (pure value : Parser α) cursor = .ok (value, cursor) :=
  rfl

theorem get_eq (cursor : Cursor) : (get : Parser Cursor) cursor = .ok (cursor, cursor) :=
  rfl

theorem set_eq (cursor cursor' : Cursor) :
    (set cursor' : Parser PUnit) cursor = .ok (⟨⟩, cursor') :=
  rfl

theorem ahead_eq (cursor : Cursor) : ahead cursor = .ok (cursor.rest, cursor) :=
  rfl

theorem take_eq (n : Nat) (cursor : Cursor) :
    take n cursor = .ok (cursor.rest.take n, ⟨cursor.pos + n, cursor.rest.drop n⟩) :=
  rfl

theorem miss_eq (cursor : Cursor) : (miss : Parser α) cursor = .error .miss :=
  rfl

theorem require_eq (condition : Bool) (cursor : Cursor) :
    require condition cursor = if condition then .ok (⟨⟩, cursor) else .error .miss := by
  cases condition <;> rfl

theorem must_eq (p : Parser α) (cursor : Cursor) :
    must p cursor =
      match p cursor with
      | .ok result => .ok result
      | .error _ => .error .wrong := by
  cases h : p cursor <;> simp only [must, h]

theorem optional_eq (p : Parser α) (cursor : Cursor) :
    Parser.optional p cursor =
      match p cursor with
      | .ok (value, cursor') => .ok (some value, cursor')
      | .error .miss => .ok (none, cursor)
      | .error .wrong => .error .wrong := by
  cases h : p cursor with
  | ok result => simp only [Parser.optional, h]
  | error refusal => cases refusal <;> simp only [Parser.optional, h]

theorem either_eq (p q : Parser α) (cursor : Cursor) :
    either p q cursor =
      match p cursor with
      | .ok result => .ok result
      | .error .miss => q cursor
      | .error .wrong => .error .wrong := by
  cases h : p cursor with
  | ok result => simp only [either, h]
  | error refusal => cases refusal <;> simp only [either, h]

theorem located_eq (p : Parser α) (cursor : Cursor) :
    located p cursor =
      match p cursor with
      | .ok (value, cursor') => .ok (⟨value, cursor.pos, cursor'.pos⟩, cursor')
      | .error refusal => .error refusal := by
  cases h : p cursor <;> simp only [located, bind_eq, get_eq, pure_eq, h]

theorem spelling_eq (p : Parser α) (cursor : Cursor) :
    spelling p cursor =
      match p cursor with
      | .ok (_, cursor') => .ok (cursor.rest.take (cursor'.pos - cursor.pos), cursor')
      | .error refusal => .error refusal := by
  cases h : p cursor <;> simp only [spelling, bind_eq, get_eq, pure_eq, discard_eq, h]

theorem exactly_eq (expected rest : Bytes) (pos : Nat) :
    exactly expected ⟨pos, expected ++ rest⟩ = .ok (⟨⟩, ⟨pos + expected.length, rest⟩) := by
  have hprefix : expected.isPrefixOf (expected ++ rest) = true := by simp
  simp [exactly, bind_eq, ahead_eq, require_eq, discard_eq, take_eq]

theorem byte_eq (b : UInt8) (rest : Bytes) (pos : Nat) :
    byte b ⟨pos, b :: rest⟩ = .ok (⟨⟩, ⟨pos + 1, rest⟩) :=
  exactly_eq [b] rest pos

theorem exactly_miss {expected : Bytes} {cursor : Cursor}
    (h : expected.isPrefixOf cursor.rest = false) : exactly expected cursor = .error .miss := by
  simp only [exactly, bind_eq, ahead_eq, require_eq, h, Bool.false_eq_true, ↓reduceIte]

theorem byte_miss {b : UInt8} {cursor : Cursor} (h : cursor.rest.head? ≠ some b) :
    byte b cursor = .error .miss := by
  apply exactly_miss
  cases hrest : cursor.rest with
  | nil => rfl
  | cons c rest =>
      rw [hrest] at h
      have hne : ¬ b = c := fun heq => h (by rw [heq]; rfl)
      simp [List.isPrefixOf, hne]

theorem flag_eq (b : UInt8) (rest : Bytes) (pos : Nat) :
    flag b ⟨pos, b :: rest⟩ = .ok (true, ⟨pos + 1, rest⟩) := by
  simp only [flag, bind_eq, optional_eq, byte_eq, pure_eq, Option.isSome_some]

theorem flag_of_ne {b : UInt8} {cursor : Cursor} (h : cursor.rest.head? ≠ some b) :
    flag b cursor = .ok (false, cursor) := by
  simp only [flag, bind_eq, optional_eq, byte_miss h, pure_eq, Option.isSome_none]

theorem manyWithin_eq (p : Parser α) (b : UInt8) (fuel : Bytes) (cursor : Cursor) :
    manyWithin p (b :: fuel) cursor =
      match p cursor with
      | .ok (value, cursor') =>
          match manyWithin p fuel cursor' with
          | .ok (values, cursor'') => .ok (value :: values, cursor'')
          | .error refusal => .error refusal
      | .error .miss => .ok ([], cursor)
      | .error .wrong => .error .wrong := by
  cases h : p cursor with
  | ok result =>
      simp only [manyWithin, h]
      cases manyWithin p fuel result.2 <;> rfl
  | error refusal => cases refusal <;> simp only [manyWithin, h]

theorem manyWithin_of_miss {p : Parser α} {cursor : Cursor} (h : p cursor = .error .miss)
    (fuel : Bytes) : manyWithin p fuel cursor = .ok ([], cursor) := by
  cases fuel with
  | nil => rfl
  | cons b fuel => simp only [manyWithin, h]

theorem many_of_miss {p : Parser α} {cursor : Cursor} (h : p cursor = .error .miss) :
    many p cursor = .ok ([], cursor) :=
  manyWithin_of_miss h cursor.rest

theorem manyWithin_cons {p : Parser α} {cursor cursor' cursor'' : Cursor} {value : α}
    {values : List α} {fuel : Bytes} (h : p cursor = .ok (value, cursor'))
    (hothers : manyWithin p fuel cursor' = .ok (values, cursor'')) (b : UInt8) :
    manyWithin p (b :: fuel) cursor = .ok (value :: values, cursor'') := by
  simp only [manyWithin_eq, h, hothers]

theorem bind_ok {p : Parser α} {f : α → Parser β} {c c' : Cursor} {value : α}
    {result : β × Cursor} (h : p c = .ok (value, c')) (hf : f value c' = .ok result) :
    (p >>= f) c = .ok result :=
  bind_eq_ok.mpr ⟨value, c', h, hf⟩

theorem exactly_eq_ok {expected : Bytes} {c d : Cursor} {value : Unit}
    (h : exactly expected c = .ok (value, d)) : c.rest = expected ++ d.rest := by
  obtain ⟨text, c₁, hahead, h⟩ := bind_eq_ok.mp h
  cases hahead
  obtain ⟨_, c₂, hrequire, h⟩ := bind_eq_ok.mp h
  rw [require_eq] at hrequire
  split at hrequire
  · rename_i hprefix
    cases hrequire
    rw [discard_eq, take_eq] at h
    cases h
    obtain ⟨rest, hrest⟩ := List.isPrefixOf_iff_prefix.mp hprefix
    rw [← hrest, List.drop_left]
  · cases hrequire

theorem byte_eq_ok {b : UInt8} {c d : Cursor} {value : Unit} (h : byte b c = .ok (value, d)) :
    c.rest = b :: d.rest :=
  exactly_eq_ok h

theorem must_eq_ok {p : Parser α} {c : Cursor} {result : α × Cursor} :
    must p c = .ok result ↔ p c = .ok result := by
  rw [must_eq]
  cases p c <;> simp

theorem exactly_ok {expected rest : Bytes} {c : Cursor} (h : c.rest = expected ++ rest) :
    ∃ d, exactly expected c = .ok (⟨⟩, d) ∧ d.rest = rest := by
  obtain ⟨pos, text⟩ := c
  cases h
  exact ⟨_, exactly_eq expected rest pos, rfl⟩

theorem byte_ok {b : UInt8} {rest : Bytes} {c : Cursor} (h : c.rest = b :: rest) :
    ∃ d, byte b c = .ok (⟨⟩, d) ∧ d.rest = rest :=
  exactly_ok h

theorem flag_eq_ok {b : UInt8} {c d : Cursor} {value : Bool} (h : flag b c = .ok (value, d)) :
    (value = true ∧ c.rest = b :: d.rest) ∨
      (value = false ∧ d = c ∧ c.rest.head? ≠ some b) := by
  by_cases hhead : c.rest.head? = some b
  · obtain ⟨rest, hrest⟩ := List.head?_eq_some_iff.mp hhead
    obtain ⟨pos, text⟩ := c
    obtain rfl : text = b :: rest := hrest
    rw [flag_eq] at h
    cases h
    exact Or.inl ⟨rfl, rfl⟩
  · rw [flag_of_ne hhead] at h
    cases h
    exact Or.inr ⟨rfl, rfl, hhead⟩

theorem flag_ok {b : UInt8} {rest : Bytes} {c : Cursor} (h : c.rest = b :: rest) :
    ∃ d, flag b c = .ok (true, d) ∧ d.rest = rest := by
  obtain ⟨pos, text⟩ := c
  cases h
  exact ⟨_, flag_eq b rest pos, rfl⟩

theorem optional_eq_ok {p : Parser α} {c d : Cursor} {result : Option α} :
    Parser.optional p c = .ok (result, d) ↔
      (∃ value, result = some value ∧ p c = .ok (value, d)) ∨
        (result = none ∧ d = c ∧ p c = .error .miss) := by
  rw [optional_eq]
  cases hp : p c with
  | ok pair =>
      obtain ⟨value, c₁⟩ := pair
      simp only [Except.ok.injEq, Prod.mk.injEq, reduceCtorEq, and_false, or_false]
      constructor
      · rintro ⟨rfl, rfl⟩
        exact ⟨value, rfl, rfl, rfl⟩
      · rintro ⟨value, rfl, rfl, rfl⟩
        exact ⟨rfl, rfl⟩
  | error refusal =>
      cases refusal with
      | miss =>
          simp only [Except.ok.injEq, Prod.mk.injEq, reduceCtorEq, and_false, exists_false,
            false_or,
            and_true]
          exact ⟨fun h => ⟨h.1.symm, h.2.symm⟩, fun h => ⟨h.1.symm, h.2.symm⟩⟩
      | wrong => simp

theorem either_eq_ok {p q : Parser α} {c : Cursor} {result : α × Cursor} :
    either p q c = .ok result ↔
      p c = .ok result ∨ (p c = .error .miss ∧ q c = .ok result) := by
  rw [either_eq]
  cases hp : p c with
  | ok pair => simp
  | error refusal => cases refusal <;> simp

theorem located_eq_ok {p : Parser α} {c d : Cursor} {value : Located α}
    (h : located p c = .ok (value, d)) : p c = .ok (value.value, d) := by
  rw [located_eq] at h
  split at h
  · rename_i hp
    cases h
    exact hp
  · cases h

theorem located_ok {p : Parser α} {c d : Cursor} {value : α} (h : p c = .ok (value, d)) :
    located p c = .ok (⟨value, c.pos, d.pos⟩, d) := by
  rw [located_eq, h]

theorem spelling_ok {p : Parser Unit} {c d : Cursor} (h : p c = .ok (⟨⟩, d)) :
    ∃ between, spelling p c = .ok (between, d) :=
  ⟨_, (spelling_eq p c).trans (by rw [h])⟩

theorem optional_ok {p : Parser α} {c d : Cursor} {value : α} (h : p c = .ok (value, d)) :
    Parser.optional p c = .ok (some value, d) :=
  optional_eq_ok.mpr (Or.inl ⟨value, rfl, h⟩)

theorem optional_miss {p : Parser α} {c : Cursor} (h : p c = .error .miss) :
    Parser.optional p c = .ok (none, c) :=
  optional_eq_ok.mpr (Or.inr ⟨rfl, rfl, h⟩)

theorem map_ok {f : α → β} {p : Parser α} {c d : Cursor} {value : α}
    (h : p c = .ok (value, d)) : (f <$> p) c = .ok (f value, d) := by
  rw [map_eq, h]

theorem map_miss {f : α → β} {p : Parser α} {c : Cursor} (h : p c = .error .miss) :
    (f <$> p) c = .error .miss := by
  rw [map_eq, h]

theorem either_ok {p q : Parser α} {c : Cursor} {result : α × Cursor} (h : p c = .ok result) :
    either p q c = .ok result := by
  rw [either_eq, h]

theorem either_miss {p q : Parser α} {c : Cursor} (h : p c = .error .miss) :
    either p q c = q c := by
  rw [either_eq, h]

theorem bind_error {p : Parser α} {f : α → Parser β} {c : Cursor} {refusal : Refusal}
    (h : p c = .error refusal) : (p >>= f) c = .error refusal := by
  rw [bind_eq, h]

theorem bind_ok_eq {p : Parser α} {f : α → Parser β} {c c' : Cursor} {value : α}
    (h : p c = .ok (value, c')) : (p >>= f) c = f value c' := by
  rw [bind_eq, h]

/-! ### Repetition -/

/-- A parser reads values one behind the other. -/
inductive Chain (p : Parser α) : Cursor → List α → Cursor → Prop
  | nil (c : Cursor) : Chain p c [] c
  | cons {c c₁ d : Cursor} {value : α} {values : List α} (h : p c = .ok (value, c₁))
      (hrest : Chain p c₁ values d) : Chain p c (value :: values) d

/-- A parser reads values one behind the other, each of them some bytes long, until it misses. -/
inductive Repeats (p : Parser α) : Cursor → List α → Cursor → Prop
  | stop {c : Cursor} (h : p c = .error .miss) : Repeats p c [] c
  | next {c c₁ d : Cursor} {value : α} {values : List α} (h : p c = .ok (value, c₁))
      (hlength : c₁.rest.length < c.rest.length) (hrest : Repeats p c₁ values d) :
      Repeats p c (value :: values) d

theorem chain_of_manyWithin {p : Parser α} {fuel : Bytes} {c d : Cursor} {values : List α}
    (h : manyWithin p fuel c = .ok (values, d)) : Chain p c values d := by
  induction fuel generalizing c values with
  | nil =>
      cases h
      exact .nil _
  | cons b fuel ih =>
      rw [manyWithin_eq] at h
      split at h
      · rename_i value c₁ hvalue
        split at h
        · rename_i others c₂ hothers
          cases h
          exact .cons hvalue (ih hothers)
        · cases h
      · cases h
        exact .nil _
      · cases h

theorem chain_of_many {p : Parser α} {c d : Cursor} {values : List α}
    (h : many p c = .ok (values, d)) : Chain p c values d :=
  chain_of_manyWithin h

theorem Repeats.manyWithin {p : Parser α} {c d : Cursor} {values : List α}
    (h : Repeats p c values d) {fuel : Bytes} (hfuel : c.rest.length ≤ fuel.length) :
    Parser.manyWithin p fuel c = .ok (values, d) := by
  induction h generalizing fuel with
  | stop h => exact manyWithin_of_miss h fuel
  | next h hlength _ ih =>
      cases fuel with
      | nil => exact absurd hlength (by rw [List.length_nil] at hfuel; omega)
      | cons b fuel =>
          rw [List.length_cons] at hfuel
          exact manyWithin_cons h (ih (by omega)) b

theorem Repeats.many {p : Parser α} {c d : Cursor} {values : List α} (h : Repeats p c values d) :
    Parser.many p c = .ok (values, d) :=
  h.manyWithin (Nat.le_refl _)

end HclToJson.Parser
