import HclToJson.Proofs.Requote.Operand

namespace HclToJson.Grammar

open Comment Text HclToJson.Parser

/-- The operators of a traversal behind the first one, each of them behind a separator. -/
inductive StepChain (nested : Nested) (newlines : Bool) : Cursor → List Step → Cursor → Prop
  | nil (c : Cursor) : StepChain nested newlines c [] c
  | cons {c c₁ c₂ d : Cursor} {s : Step} {others : List Step}
      (hseparator : separator newlines c = .ok (⟨⟩, c₁)) (hstep : step nested c₁ = .ok (s, c₂))
      (hothers : StepChain nested newlines c₂ others d) :
      StepChain nested newlines c (s :: others) d

section

variable {behind text text' : Bytes} {bound braces : Nat} {outer : List Frame} {c c' d : Cursor}
  {nested nested' : Nested} {b : UInt8}

/-! ### Attributes and elements -/

theorem elementIndex_zero (h : byte Byte.zero c = .ok (⟨⟩, d)) : elementIndex c = .ok (0, d) := by
  obtain ⟨rest, hrest⟩ : ∃ rest, c.rest = Byte.zero :: rest := ⟨d.rest, byte_eq_ok h⟩
  obtain ⟨pos, text⟩ := c
  obtain rfl : text = Byte.zero :: rest := hrest
  have hvalue : Decimal.readNat (Text.decode [Byte.zero]) = 0 := by decide
  rw [byte_eq] at h
  cases h
  simp only [elementIndex, bind_eq, ahead_eq, List.head?_cons, ↓reduceIte, take_eq,
    List.take_succ_cons, List.take_zero, List.drop_succ_cons, List.drop_zero, hvalue, require_eq]
  rfl

/-- An index that does not start with a zero is a number of digits. -/
theorem elementIndex_digits (h : c.rest.head? = some b) (hb : Byte.isDigit b = true)
    (hzero : b ≠ Byte.zero) :
    elementIndex c = (do
      let value := Decimal.readNat (← digits)
      Parser.require (value < 0x1_0000_0000_0000_0000)
      return value) c := by
  obtain ⟨rest, hrest⟩ := List.head?_eq_some_iff.mp h
  have hpos : decide (0 < (c.rest.takeWhile Byte.isDigit).length) = true := by
    simp [hrest, hb]
  have hne : ¬ c.rest.head? = some Byte.zero := by
    rw [h]
    exact fun heq => hzero (Option.some.inj heq)
  simp only [elementIndex, digits, bind_eq, ahead_eq, if_neg hne, require_eq, hpos, ↓reduceIte,
    take_eq, pure_eq]

/-- A byte that the operator behind a dot starts with. -/
def StepByte (b : UInt8) : Prop :=
  b = Byte.star ∨ Byte.isDigit b = true ∨ isIdentStart b = true

instance decidableStepByte (b : UInt8) : Decidable (StepByte b) :=
  inferInstanceAs (Decidable (_ ∨ _))

theorem attributeStep_eq_ok {start : Cursor} {s : Step} (h : attributeStep start c = .ok (s, d)) :
    ∃ b ∈ c.rest.head?, StepByte b ∧
      ((b = Byte.star ∧ byte Byte.star c = .ok (⟨⟩, d) ∧ ∃ layout, s = .attributeSplat layout) ∨
        (b ≠ Byte.star ∧ Byte.isDigit b = true ∧ ∃ index layout, elementIndex c = .ok (index, d) ∧
          s = .element layout index) ∨
        (b ≠ Byte.star ∧ Byte.isDigit b = false ∧ ∃ name layout, ident c = .ok (name, d) ∧
          s = .attribute layout name)) := by
  obtain ⟨_, _, hahead, hrun⟩ := bind_eq_ok.mp h
  cases hahead
  cases hhead : c.rest.head? with
  | none =>
      rw [hhead] at hrun
      cases hrun
  | some b =>
      refine ⟨b, rfl, ?_⟩
      simp only [hhead] at hrun
      split at hrun
      · rename_i hstar
        obtain ⟨rest, hrest⟩ := List.head?_eq_some_iff.mp hhead
        obtain ⟨_, c₁, htake, hrun⟩ := bind_eq_ok.mp hrun
        rw [discard_eq, take_eq] at htake
        cases htake
        cases hrun
        subst hstar
        obtain ⟨pos, text⟩ := c
        obtain rfl : text = Byte.star :: rest := hrest
        exact ⟨Or.inl rfl, Or.inl ⟨rfl, byte_eq Byte.star rest pos, _, rfl⟩⟩
      · rename_i hstar
        split at hrun
        · rename_i hdigit
          obtain ⟨index, c₁, hindex, hrun⟩ := bind_eq_ok.mp hrun
          cases hrun
          exact ⟨Or.inr (Or.inl hdigit), Or.inr (Or.inl ⟨hstar, hdigit, index, _, hindex, rfl⟩)⟩
        · rename_i hdigit
          split at hrun
          · rename_i hident
            obtain ⟨name, c₁, hname, hrun⟩ := bind_eq_ok.mp hrun
            cases hrun
            exact ⟨Or.inr (Or.inr ((identLength_pos hhead).mp hident)),
              Or.inr (Or.inr ⟨hstar, by simpa using hdigit, name, _, hname, rfl⟩)⟩
          · cases hrun

theorem attributeStep_star {start : Cursor} (h : byte Byte.star c = .ok (⟨⟩, d)) :
    ∃ s, attributeStep start c = .ok (s, d) := by
  obtain ⟨rest, hrest⟩ : ∃ rest, c.rest = Byte.star :: rest := ⟨d.rest, byte_eq_ok h⟩
  obtain ⟨pos, text⟩ := c
  obtain rfl : text = Byte.star :: rest := hrest
  rw [byte_eq] at h
  cases h
  exact ⟨.attributeSplat _, rfl⟩

theorem attributeStep_index {start : Cursor} {index : Nat} (hhead : c.rest.head? = some b)
    (hstar : b ≠ Byte.star) (hdigit : Byte.isDigit b = true) (h : elementIndex c = .ok (index, d)) :
    ∃ s, attributeStep start c = .ok (s, d) := by
  rw [attributeStep, bind_ok_eq (ahead_eq c)]
  simp only [hhead, if_neg hstar, if_pos hdigit]
  exact ⟨_, bind_ok h rfl⟩

theorem attributeStep_attribute {start : Cursor} {name : String} (hhead : c.rest.head? = some b)
    (hstar : b ≠ Byte.star) (hdigit : Byte.isDigit b = false) (hb : isIdentStart b = true)
    (h : ident c = .ok (name, d)) : ∃ s, attributeStep start c = .ok (s, d) := by
  have hpos := (identLength_pos hhead).mpr hb
  rw [attributeStep, bind_ok_eq (ahead_eq c)]
  simp only [hhead, if_neg hstar, hdigit, Bool.false_eq_true, ↓reduceIte, if_pos hpos]
  exact ⟨_, bind_ok h rfl⟩

theorem elementIndex_eq_ok {index : Nat} (hhead : c.rest.head? = some b)
    (hdigit : Byte.isDigit b = true) (h : elementIndex c = .ok (index, d)) :
    (b = Byte.zero ∧ index = 0 ∧ byte Byte.zero c = .ok (⟨⟩, d)) ∨
      (b ≠ Byte.zero ∧ ∃ value, digits c = .ok (value, d) ∧ index = Decimal.readNat value ∧
        Decimal.readNat value < 0x1_0000_0000_0000_0000) := by
  by_cases hzero : b = Byte.zero
  · subst hzero
    obtain ⟨rest, hrest⟩ := List.head?_eq_some_iff.mp hhead
    obtain ⟨d₁, hbyte, -⟩ := byte_ok hrest
    rw [elementIndex_zero hbyte] at h
    cases h
    exact Or.inl ⟨rfl, rfl, hbyte⟩
  · rw [elementIndex_digits hhead hdigit hzero] at h
    obtain ⟨value, c₁, hvalue, h⟩ := bind_eq_ok.mp h
    obtain ⟨_, c₂, hrequire, h⟩ := bind_eq_ok.mp h
    rw [require_eq] at hrequire
    split at hrequire
    · rename_i hsmall
      cases hrequire
      cases h
      exact Or.inr ⟨hzero, value, hvalue, rfl, of_decide_eq_true hsmall⟩
    · cases hrequire

/-- The index of an element is read from both texts. -/
theorem retrace_elementIndex (hends : Ends behind)
    (h : Tracks behind (.within (.code braces) outer) text c c') {index : Nat}
    (hhead : c.rest.head? = some b) (hhead' : c'.rest.head? = some b)
    (hdigit : Byte.isDigit b = true) (hrun : elementIndex c = .ok (index, d))
    (hd : d.rest = text' ++ behind) :
    ∃ d', elementIndex c' = .ok (index, d') ∧
      Tracks behind (.within (.code braces) outer) text' d d' ∧
      d'.rest.length < c'.rest.length := by
  rcases elementIndex_eq_ok hhead hdigit hrun with
    ⟨rfl, rfl, hzero⟩ | ⟨hne, value, hvalue, rfl, hsmall⟩
  · obtain ⟨-, d', hzero', htracks, hlength, -⟩ := retrace_byte h (by decide) hzero hd
    exact ⟨d', elementIndex_zero hzero', htracks, hlength⟩
  · obtain ⟨text'', d', hvalue', htracks, hlength, -⟩ := retrace_digits hends h hvalue
    obtain rfl := List.append_cancel_right (htracks.rest.symm.trans hd)
    refine ⟨d', ?_, htracks, hlength⟩
    rw [elementIndex_digits hhead' hdigit hne]
    refine bind_ok hvalue' ?_
    simp only [bind_eq, require_eq, decide_eq_true hsmall, ↓reduceIte, pure_eq]

theorem StepByte.settled (hb : StepByte b) (rest : Bytes) : Settled (b :: rest) := by
  have hall : ∀ b : UInt8, StepByte b → Byte.isBlank b = false ∧ b ≠ Byte.hash ∧ b ≠ Byte.slash :=
    Byte.forall_of_lt (by decide +kernel)
  exact settled_of_not_mem (hall b hb) rest

/-- The operator behind a dot is read from both texts. -/
theorem retrace_attributeStep (hends : Ends behind)
    (h : Tracks behind (.within (.code braces) outer) text c c') {start : Cursor} (start' : Cursor)
    {s : Step} (hrun : attributeStep start c = .ok (s, d)) (hd : d.rest = text' ++ behind) :
    (∃ b ∈ text.head?, StepByte b) ∧ ∃ s' d', attributeStep start' c' = .ok (s', d') ∧
      Tracks behind (.within (.code braces) outer) text' d d' ∧
      d'.rest.length < c'.rest.length := by
  obtain ⟨b, hhead, hb, hcases⟩ := attributeStep_eq_ok hrun
  have hnot : ∀ b ∈ valueEnds, ¬ StepByte b := forall_mem_of_all rfl
  obtain ⟨b', rest, rfl, -⟩ := hends.head_mem hnot ⟨b, by rw [← h.rest]; exact hhead, hb⟩
  obtain rfl : b' = b := by simpa [h.rest] using hhead
  have hhead' : c'.rest.head? = some b' := h.head?_settled (hb.settled rest)
  refine ⟨⟨b', rfl, hb⟩, ?_⟩
  rcases hcases with ⟨rfl, hstar, -⟩ | ⟨hstar, hdigit, index, -, hindex, -⟩ |
    ⟨hstar, hdigit, name, -, hname, -⟩
  · obtain ⟨-, d', hstar', htracks, hlength, -⟩ := retrace_byte h (by decide) hstar hd
    obtain ⟨s', hs'⟩ := attributeStep_star hstar'
    exact ⟨s', d', hs', htracks, hlength⟩
  · obtain ⟨d', hindex', htracks, hlength⟩ :=
      retrace_elementIndex hends h hhead hhead' hdigit hindex hd
    obtain ⟨s', hs'⟩ := attributeStep_index hhead' hstar hdigit hindex'
    exact ⟨s', d', hs', htracks, hlength⟩
  · obtain ⟨d', hname', htracks, hlength⟩ := retrace_ident h hname hd
    have hident : isIdentStart b' = true := by
      rcases hb with heq | htrue | hident
      · exact absurd heq hstar
      · rw [hdigit] at htrue
        cases htrue
      · exact hident
    obtain ⟨s', hs'⟩ := attributeStep_attribute hhead' hstar hdigit hident hname'
    exact ⟨s', d', hs', htracks, hlength⟩

/-! ### Indices -/

theorem indexStep_eq_ok {start : Cursor} {s : Step} (h : indexStep nested start c = .ok (s, d)) :
    (∃ c₁ c₂ c₃ layout, blankLines c = .ok (⟨⟩, c₁) ∧ byte Byte.star c₁ = .ok (⟨⟩, c₂) ∧
      blankLines c₂ = .ok (⟨⟩, c₃) ∧ byte Byte.closeBracket c₃ = .ok (⟨⟩, d) ∧
      s = .fullSplat layout) ∨
    (∃ key c₁ layout, spaced nested c = .ok (key, c₁) ∧ byte Byte.closeBracket c₁ = .ok (⟨⟩, d) ∧
      s = .index layout key.value) := by
  obtain ⟨next, _, hnext, hrun⟩ := bind_eq_ok.mp h
  rw [nextToken_eq (separator_eq true c)] at hnext
  cases hnext
  split at hrun
  · obtain ⟨_, c₁, hblank, hrun⟩ := bind_eq_ok.mp hrun
    obtain ⟨_, c₂, hstar, hrun⟩ := bind_eq_ok.mp hrun
    obtain ⟨_, c₃, hblank', hrun⟩ := bind_eq_ok.mp hrun
    obtain ⟨_, c₄, hclose, hrun⟩ := bind_eq_ok.mp hrun
    cases hrun
    exact Or.inl ⟨c₁, c₂, c₃, _, hblank, hstar, hblank', must_eq_ok.mp hclose, rfl⟩
  · obtain ⟨key, c₁, hkey, hrun⟩ := bind_eq_ok.mp hrun
    obtain ⟨_, c₂, hclose, hrun⟩ := bind_eq_ok.mp hrun
    cases hrun
    exact Or.inr ⟨key, c₁, _, hkey, must_eq_ok.mp hclose, rfl⟩

theorem indexStep_splat {start c₁ c₂ c₃ : Cursor} (hblank : blankLines c = .ok (⟨⟩, c₁))
    (hstar : byte Byte.star c₁ = .ok (⟨⟩, c₂)) (hblank' : blankLines c₂ = .ok (⟨⟩, c₃))
    (hclose : byte Byte.closeBracket c₃ = .ok (⟨⟩, d)) :
    ∃ s, indexStep nested start c = .ok (s, d) := by
  have hhead : c₁.rest.head? = some Byte.star := by
    rw [byte_eq_ok hstar]
    rfl
  rw [indexStep, bind_ok_eq (nextToken_eq hblank), if_pos hhead]
  exact ⟨_, bind_ok hblank (bind_ok hstar (bind_ok hblank' (bind_ok (must_eq_ok.mpr hclose) rfl)))⟩

theorem indexStep_key {start c₁ c₂ : Cursor} {key : Located Expr}
    (hblank : blankLines c = .ok (⟨⟩, c₁)) (hne : c₁.rest.head? ≠ some Byte.star)
    (hkey : spaced nested c = .ok (key, c₂)) (hclose : byte Byte.closeBracket c₂ = .ok (⟨⟩, d)) :
    ∃ s, indexStep nested start c = .ok (s, d) := by
  rw [indexStep, bind_ok_eq (nextToken_eq hblank), if_neg hne]
  exact ⟨_, bind_ok hkey (bind_ok (must_eq_ok.mpr hclose) rfl)⟩

/-- The operator behind a bracket is read from both texts. -/
theorem retrace_indexStep (hn : NestedRetraces behind bound nested nested') (hends : Ends behind)
    (h : Tracks behind (.within (.code braces) outer) text c c') (hbound : c'.rest.length < bound)
    {start : Cursor} (start' : Cursor) {s : Step} (hrun : indexStep nested start c = .ok (s, d))
    (hd : d.rest = text' ++ behind) (hjoin : Expr.joinableSteps [s] = true) :
    ∃ s' d', indexStep nested' start' c' = .ok (s', d') ∧
      Tracks behind (.within (.code braces) outer) text' d d' ∧
      d'.rest.length < c'.rest.length := by
  rcases indexStep_eq_ok hrun with ⟨c₁, c₂, c₃, layout, hblank, hstar, hblank₂, hclose, rfl⟩ |
    ⟨key, c₁, layout, hkey, hclose, rfl⟩
  · obtain ⟨text₃, hc₃⟩ := (advances_byte _ c₃ hclose).inside hd
    obtain ⟨text₂, hc₂⟩ := (advances_blankLines c₂ hblank₂).inside hc₃
    obtain ⟨text₁, hc₁⟩ := (advances_byte _ c₁ hstar).inside hc₂
    obtain ⟨c₁', hblank', h₁, -, -, hlength₁, -⟩ := retrace_blank h hblank hc₁ true
    obtain ⟨-, c₂', hstar', h₂, hlength₂, -⟩ := retrace_byte h₁ (by decide) hstar hc₂
    obtain ⟨c₃', hblank₂', h₃, -, -, hlength₃, -⟩ := retrace_blank h₂ hblank₂ hc₃ true
    obtain ⟨-, d', hclose', htracks, hlength, -⟩ := retrace_byte h₃ (by decide) hclose hd
    obtain ⟨s', hs'⟩ := indexStep_splat hblank' hstar' hblank₂' hclose'
    exact ⟨s', d', hs', htracks, by omega⟩
  · obtain ⟨text₁, hc₁⟩ := (advances_byte _ c₁ hclose).inside hd
    obtain ⟨b, hb, hoperand⟩ := hn.head? hends h.fit h.rest advances_blankLines hkey hc₁
    obtain ⟨c₂', hblank', hc₂', -⟩ := separator_tidy h true
    obtain ⟨key', c₁', hkey', h₁, -, hlength₁⟩ := hn.spacedOperand h hbound hkey hc₁
      (by simpa [Expr.joinableSteps] using hjoin) fun hfit =>
        (ahead_of_byte (by decide) hclose hd).ended (by decide) key.value hc₁ hfit
    obtain ⟨-, d', hclose', htracks, hlength, -⟩ := retrace_byte h₁ (by decide) hclose hd
    have hne : c₂'.rest.head? ≠ some Byte.star := by
      rw [hc₂', Option.mem_def.mp hb]
      exact fun heq => absurd hoperand (by rw [Option.some.inj heq]; decide)
    obtain ⟨s', hs'⟩ := indexStep_key hblank' hne hkey' hclose'
    exact ⟨s', d', hs', htracks, by omega⟩

/-! ### Steps -/

theorem step_eq_ok {s : Step} (h : step nested c = .ok (s, d)) :
    (∃ c₁ c₂, byte Byte.dot c = .ok (⟨⟩, c₁) ∧ blankLines c₁ = .ok (⟨⟩, c₂) ∧
      attributeStep c c₂ = .ok (s, d)) ∨
    (∃ c₁, byte Byte.openBracket c = .ok (⟨⟩, c₁) ∧ indexStep nested c c₁ = .ok (s, d)) := by
  obtain ⟨_, _, hget, h⟩ := bind_eq_ok.mp h
  cases hget
  obtain ⟨dot, c₁, hdot, hrun⟩ := bind_eq_ok.mp h
  rcases flag_cases hdot with ⟨rfl, hbyte⟩ | ⟨rfl, rfl, -⟩
  · obtain ⟨_, c₂, hblank, hrun⟩ := bind_eq_ok.mp hrun
    exact Or.inl ⟨c₁, c₂, hbyte, hblank, hrun⟩
  · obtain ⟨_, c₂, hopen, hrun⟩ := bind_eq_ok.mp hrun
    exact Or.inr ⟨c₂, hopen, hrun⟩

/-- An operator of a traversal is read from both texts, and is seen to be one. -/
theorem retrace_step (hn : NestedRetraces behind bound nested nested') (hends : Ends behind)
    (h : Tracks behind (.within (.code braces) outer) text c c') (hbound : c'.rest.length ≤ bound)
    {s : Step} (hrun : step nested c = .ok (s, d)) (hd : d.rest = text' ++ behind)
    (hjoin : Expr.joinableSteps [s] = true) :
    ∃ s' d', step nested' c' = .ok (s', d') ∧
      Tracks behind (.within (.code braces) outer) text' d d' ∧
      d'.rest.length < c'.rest.length ∧ opensStep c'.rest = true ∧
        endsExpression c'.rest = false := by
  rcases step_eq_ok hrun with ⟨c₁, c₂, hdot, hblank, hattribute⟩ | ⟨c₁, hopen, hindex⟩
  · obtain ⟨text₂, hc₂⟩ := (advances_attributeStep c c₂ hattribute).inside hd
    obtain ⟨text₁, hc₁⟩ := (advances_blankLines c₁ hblank).inside hc₂
    obtain ⟨-, c₁', hdot', h₁, hlength₁, -⟩ := retrace_byte h (by decide) hdot hc₁
    obtain ⟨c₂', hblank', h₂, hc₂', hsame, hlength₂, hsettled⟩ := retrace_blank h₁ hblank hc₂ true
    obtain ⟨⟨b, hb, hstep⟩, s', d', hattribute', htracks, hlength⟩ :=
      retrace_attributeStep hends h₂ c' hattribute hd
    have hrest := byte_eq_ok hdot'
    have hhead : c₁'.rest.head? = some Byte.space ∨ c₁'.rest.head? = some b :=
      h₁.head?_tidy (by rw [hsame, head?_squeeze h₂.fit (hsettled rfl)]; exact hb)
    obtain ⟨e, others, hothers, hne⟩ : ∃ e others, c₁'.rest = e :: others ∧ e ≠ Byte.dot := by
      rcases hhead with hspace | hsame
      · obtain ⟨others, hothers⟩ := List.head?_eq_some_iff.mp hspace
        exact ⟨_, others, hothers, by decide⟩
      · obtain ⟨others, hothers⟩ := List.head?_eq_some_iff.mp hsame
        exact ⟨b, others, hothers, fun heq => absurd hstep (by rw [heq]; decide)⟩
    refine ⟨s', d', bind_ok (get_eq c') (bind_ok (flag_of_byte hdot')
      (bind_ok hblank' hattribute')),
      htracks, by omega, ?_, ?_⟩
    · rw [hrest, hothers]
      rfl
    · rw [hrest, hothers]
      have hdots : ¬ Byte.dot = e := fun heq => hne heq.symm
      have hslash : ¬ Byte.slash = Byte.dot := by decide
      simp [endsExpression, List.isPrefixOf, hdots, hslash]
  · obtain ⟨text₁, hc₁⟩ := (advances_indexStep hn.advances c c₁ hindex).inside hd
    obtain ⟨-, c₁', hopen', h₁, hlength₁, -⟩ := retrace_byte h (by decide) hopen hc₁
    obtain ⟨s', d', hindex', htracks, hlength⟩ :=
      retrace_indexStep hn hends h₁ (by omega) c' hindex hd hjoin
    have hrest := byte_eq_ok hopen'
    obtain ⟨e, others, hothers⟩ : ∃ e others, c₁'.rest = e :: others :=
      List.exists_cons_of_length_pos (by omega)
    have hmiss : byte Byte.dot c' = .error .miss := byte_miss fun hhead => by
      rw [hrest] at hhead
      exact absurd (Option.some.inj hhead) (by decide)
    refine ⟨s', d', bind_ok (get_eq c') (bind_ok (flag_of_miss hmiss) (bind_ok hopen' hindex')),
      htracks, by omega, ?_, ?_⟩
    · rw [hrest, hothers]
      rfl
    · rw [hrest, hothers]
      have hbracket : ¬ Byte.slash = Byte.openBracket ∧ ¬ Byte.dot = Byte.openBracket := by decide
      simp [endsExpression, List.isPrefixOf, hbracket]

/-! ### Traversals -/

theorem stepChain_of_laterSteps {newlines : Bool} {fuel : Bytes} {steps : List Step}
    (h : laterSteps nested newlines fuel c = .ok (steps, d)) :
    StepChain nested newlines c steps d := by
  induction fuel generalizing c steps with
  | nil =>
      cases h
      exact .nil _
  | cons b fuel ih =>
      obtain ⟨_, _, hget, hrun⟩ := bind_eq_ok.mp h
      cases hget
      obtain ⟨_, c₁, hseparator, hrun⟩ := bind_eq_ok.mp hrun
      obtain ⟨_, _, hahead, hrun⟩ := bind_eq_ok.mp hrun
      cases hahead
      split at hrun
      · obtain ⟨s, c₂, hstep, hrun⟩ := bind_eq_ok.mp hrun
        obtain ⟨others, c₃, hothers, hrun⟩ := bind_eq_ok.mp hrun
        cases hrun
        exact .cons hseparator hstep (ih hothers)
      · cases hrun
        exact .nil _

theorem StepChain.reaches {newlines : Bool} {steps : List Step}
    (h : StepChain nested newlines c steps d) (hn : nested.Advances) : c.Reaches d := by
  induction h with
  | nil c => exact .refl c
  | cons hseparator hstep _ ih =>
      exact ((advances_separator _ _ hseparator).trans (advances_step hn _ hstep)).trans ih

theorem laterSteps_cons {newlines : Bool} {s : Step} {others : List Step} {fuel : Bytes}
    {c₁ c₂ : Cursor} (hseparator : separator newlines c = .ok (⟨⟩, c₁))
    (hopens : opensStep c₁.rest = true) (hstep : step nested c₁ = .ok (s, c₂))
    (hothers : laterSteps nested newlines fuel c₂ = .ok (others, d)) (b : UInt8) :
    laterSteps nested newlines (b :: fuel) c = .ok (s :: others, d) := by
  refine bind_ok (get_eq c) (bind_ok hseparator (bind_ok (ahead_eq c₁) ?_))
  rw [if_pos hopens]
  exact bind_ok hstep (bind_ok hothers rfl)

theorem laterSteps_nil {newlines : Bool} {c₁ : Cursor}
    (hseparator : separator newlines c = .ok (⟨⟩, c₁)) (hopens : opensStep c₁.rest = false)
    (fuel : Bytes) : laterSteps nested newlines fuel c = .ok ([], c) := by
  cases fuel with
  | nil => rfl
  | cons b fuel =>
      refine bind_ok (get_eq c) (bind_ok hseparator (bind_ok (ahead_eq c₁) ?_))
      rw [if_neg (by simp [hopens])]
      rfl

theorem joinableSteps_cons (s : Step) (others : List Step) :
    Expr.joinableSteps (s :: others) = (Expr.joinableSteps [s] && Expr.joinableSteps others) := by
  cases s <;> simp [Expr.joinableSteps]

/-- The operators behind the first one are read from both texts. -/
theorem retrace_laterSteps (hn : NestedRetraces behind bound nested nested') (hends : Ends behind)
    {newlines : Bool} {steps : List Step} (hrun : StepChain nested newlines c steps d)
    (h : Tracks behind (.within (.code braces) outer) text c c') (hbound : c'.rest.length ≤ bound)
    (hd : d.rest = text' ++ behind) (hjoin : Expr.joinableSteps steps = true)
    (hstop : Fit (.within (.code braces) outer) text' →
      opensStep (squeeze (uncommented (.within (.code braces) outer) text')) = false) :
    ∃ steps' d', (∀ fuel, c'.rest.length ≤ fuel.length →
        laterSteps nested' newlines fuel c' = .ok (steps', d')) ∧
      Tracks behind (.within (.code braces) outer) text' d d' ∧
      d'.rest.length ≤ c'.rest.length := by
  induction hrun generalizing text c' with
  | nil c =>
      obtain rfl := List.append_cancel_right (h.rest.symm.trans hd)
      obtain ⟨c₁', hseparator', hc₁', -⟩ := separator_tidy h newlines
      have hopens : opensStep c₁'.rest = false := by
        rw [hc₁']
        exact hstop h.fit
      exact ⟨[], c', fun fuel _ => laterSteps_nil hseparator' hopens fuel, h, Nat.le_refl _⟩
  | @cons c c₁ c₂ d s others hseparator hstep hothers ih =>
      rw [joinableSteps_cons, Bool.and_eq_true] at hjoin
      obtain ⟨text₂, hc₂⟩ := (hothers.reaches hn.advances).inside hd
      obtain ⟨text₁, hc₁⟩ := (advances_step hn.advances c₁ hstep).inside hc₂
      obtain ⟨c₁', hseparator', h₁, -, -, hlength₁, -⟩ := retrace_blank h hseparator hc₁ newlines
      obtain ⟨s', c₂', hstep', h₂, hlength₂, hopens, -⟩ :=
        retrace_step hn hends h₁ (by omega) hstep hc₂ hjoin.1
      obtain ⟨others', d', hothers', htracks, hlength⟩ := ih h₂ (by omega) hd hjoin.2
      refine ⟨s' :: others', d', fun fuel hfuel => ?_, htracks, by omega⟩
      cases fuel with
      | nil => exact absurd hlength₂ (by rw [List.length_nil] at hfuel; omega)
      | cons b fuel =>
          rw [List.length_cons] at hfuel
          exact laterSteps_cons hseparator' hopens hstep' (hothers' fuel (by omega)) b

theorem spelling_eq_ok {p : Parser Unit} {between : Bytes} (h : spelling p c = .ok (between, d)) :
    p c = .ok (⟨⟩, d) := by
  rw [spelling_eq] at h
  split at h
  · rename_i hp
    cases h
    exact hp
  · cases h

theorem traversal_eq_ok {newlines : Bool} {start : Cursor} {base : Located Expr} {e : Expr}
    (h : traversal nested newlines start base c = .ok (e, d)) :
    (∃ c₁ c₂ between first others layout, separator newlines c = .ok (⟨⟩, c₁) ∧
      step nested c₁ = .ok (first, c₂) ∧ StepChain nested newlines c₂ others d ∧
      e = .traversal layout (base.value.followedBy between) (first :: others)) ∨
    (e = base.value ∧ d = c) := by
  obtain ⟨_, _, hget, hrun⟩ := bind_eq_ok.mp h
  cases hget
  obtain ⟨between, c₁, hbetween, hrun⟩ := bind_eq_ok.mp hrun
  obtain ⟨_, _, hahead, hrun⟩ := bind_eq_ok.mp hrun
  cases hahead
  split at hrun
  · obtain ⟨_, _, hget, hrun⟩ := bind_eq_ok.mp hrun
    cases hget
    obtain ⟨first, c₂, hfirst, hrun⟩ := bind_eq_ok.mp hrun
    obtain ⟨layout, c₃, hlayout, hrun⟩ := bind_eq_ok.mp hrun
    cases hlayout
    obtain ⟨others, c₄, hothers, hrun⟩ := bind_eq_ok.mp hrun
    cases hrun
    exact Or.inl ⟨c₁, _, between, first.value, others, _, spelling_eq_ok hbetween,
      located_eq_ok hfirst, stepChain_of_laterSteps hothers, rfl⟩
  · cases hrun
    exact Or.inr ⟨rfl, rfl⟩

theorem traversal_steps {newlines : Bool} (start : Cursor) (base : Located Expr) {first : Step}
    {others : List Step} {c₁ c₂ : Cursor} (hseparator : separator newlines c = .ok (⟨⟩, c₁))
    (hopens : opensStep c₁.rest = true) (hends : endsExpression c₁.rest = false)
    (hfirst : step nested c₁ = .ok (first, c₂))
    (hothers : laterSteps nested newlines c₁.rest c₂ = .ok (others, d)) :
    ∃ e, traversal nested newlines start base c = .ok (e, d) ∧ e.form = .quoted := by
  obtain ⟨between, hbetween⟩ := spelling_ok hseparator
  rw [traversal, bind_ok_eq (get_eq c), bind_ok_eq hbetween, bind_ok_eq (ahead_eq c₁),
    if_pos ⟨hopens, by simp [hends]⟩]
  exact ⟨.traversal _ _ _, bind_ok (get_eq c₁) (bind_ok (located_ok hfirst)
    (bind_ok rfl (bind_ok hothers rfl))), rfl⟩

/-- A traversal is read from both texts, or is in neither. -/
theorem retrace_traversal (hn : NestedRetraces behind bound nested nested') (hends : Ends behind)
    (h : Tracks behind (.within (.code braces) outer) text c c') (hbound : c'.rest.length ≤ bound)
    {newlines : Bool} {start : Cursor} (start' : Cursor) {base base' : Located Expr} {e : Expr}
    (hform : base'.value.form = base.value.form)
    (hrun : traversal nested newlines start base c = .ok (e, d)) (hd : d.rest = text' ++ behind)
    (hjoin : e.joinable = true)
    (hstop : Fit (.within (.code braces) outer) text' →
      let tidy := squeeze (uncommented (.within (.code braces) outer) text')
      (endsExpression tidy = true ∨ opensStep tidy = false) ∧
        (e.endsInSteps = true → opensStep tidy = false)) :
    ∃ e' d', traversal nested' newlines start' base' c' = .ok (e', d') ∧
      Tracks behind (.within (.code braces) outer) text' d d' ∧
      d'.rest.length ≤ c'.rest.length ∧ e'.form = e.form := by
  rcases traversal_eq_ok hrun with
    ⟨c₁, c₂, between, first, others, layout, hseparator, hfirst, hothers, rfl⟩ | ⟨rfl, rfl⟩
  · simp only [Expr.joinable, Bool.and_eq_true] at hjoin
    rw [joinableSteps_cons, Bool.and_eq_true] at hjoin
    obtain ⟨text₂, hc₂⟩ := (hothers.reaches hn.advances).inside hd
    obtain ⟨text₁, hc₁⟩ := (advances_step hn.advances c₁ hfirst).inside hc₂
    obtain ⟨c₁', hseparator', h₁, -, -, hlength₁, -⟩ := retrace_blank h hseparator hc₁ newlines
    obtain ⟨first', c₂', hfirst', h₂, hlength₂, hopens, hnotEnd⟩ :=
      retrace_step hn hends h₁ (by omega) hfirst hc₂ hjoin.2.1
    obtain ⟨others', d', hothers', htracks, hlength⟩ := retrace_laterSteps hn hends hothers h₂
      (by omega) hd hjoin.2.2 fun hfit => (hstop hfit).2 rfl
    obtain ⟨e', hrun', hform'⟩ := traversal_steps start' base' hseparator' hopens hnotEnd hfirst'
      (hothers' c₁'.rest (by omega))
    exact ⟨e', d', hrun', htracks, by omega, hform'⟩
  · obtain rfl := List.append_cancel_right (h.rest.symm.trans hd)
    obtain ⟨c₁', hseparator', hc₁', -⟩ := separator_tidy h newlines
    exact ⟨base'.value, c', traversal_base start' base' hseparator'
      (by rw [hc₁']; exact (hstop h.fit).1), h, Nat.le_refl _, hform⟩

end

end HclToJson.Grammar
