import HclToJson.Proofs.Requote.Nested

namespace HclToJson.Grammar

open Comment Text HclToJson.Parser

section

variable {behind text text' : Bytes} {bound braces : Nat} {frame : Frame} {outer : List Frame}
  {c c' d : Cursor} {b : UInt8} {mark : Bool}

/-- A mark for trimming is read from both texts. -/
theorem retrace_mark (h : Tracks behind (.within (.code braces) outer) text c c')
    (hrun : flag Byte.tilde c = .ok (mark, d)) (hd : d.rest = text' ++ behind)
    (hnext : mark = false →
      ∃ b ∈ (squeeze (uncommented (.within (.code braces) outer) text')).head?, b ≠ Byte.tilde) :
    ∃ d', flag Byte.tilde c' = .ok (mark, d') ∧
      Tracks behind (.within (.code braces) outer) text' d d' ∧
      d'.rest.length ≤ c'.rest.length := by
  rcases flag_eq_ok hrun with ⟨rfl, hrest⟩ | ⟨rfl, rfl, -⟩
  · obtain rfl := split_byte h.rest hrest hd
    obtain ⟨d', hflag, htracks, hlength⟩ := retrace_flag h (by decide) hd
    exact ⟨d', hflag, htracks, Nat.le_of_lt hlength⟩
  · obtain rfl : text = text' := List.append_cancel_right (h.rest.symm.trans hd)
    obtain ⟨b, hb, hne⟩ := hnext rfl
    refine ⟨c', flag_of_ne fun hhead => ?_, h, Nat.le_refl _⟩
    rcases h.head?_tidy hb with hspace | hsame
    · exact absurd (Option.some.inj (hspace.symm.trans hhead)) (by decide)
    · exact hne (Option.some.inj (hsame.symm.trans hhead))

theorem closeTag_eq_ok (h : closeTag c = .ok (mark, d)) :
    ∃ c₁, flag Byte.tilde c = .ok (mark, c₁) ∧ byte Byte.closeBrace c₁ = .ok (⟨⟩, d) := by
  obtain ⟨mark', c₁, hflag, h⟩ := bind_eq_ok.mp h
  obtain ⟨_, c₂, hbyte, h⟩ := bind_eq_ok.mp h
  cases h
  exact ⟨c₁, hflag, must_eq_ok.mp hbyte⟩

/-- What closes a tag or an interpolation. -/
theorem closeTag_head (hc : c.rest = text ++ behind) (hrun : closeTag c = .ok (mark, d))
    (hd : d.rest = text' ++ behind) :
    ∃ b rest, text = b :: rest ∧ (b = Byte.tilde ∨ b = Byte.closeBrace) := by
  obtain ⟨c₁, hflag, hbyte⟩ := closeTag_eq_ok hrun
  obtain ⟨text₁, hc₁⟩ := (advances_byte Byte.closeBrace c₁ hbyte).inside hd
  rcases flag_eq_ok hflag with ⟨-, hrest⟩ | ⟨-, rfl, -⟩
  · exact ⟨_, text₁, split_byte hc hrest hc₁, Or.inl rfl⟩
  · exact ⟨_, text', split_byte hc (byte_eq_ok hbyte) hd, Or.inr rfl⟩

theorem retrace_closeTag (h : Tracks behind (.within (.code 0) (frame :: outer)) text c c')
    (hrun : closeTag c = .ok (mark, d)) (hd : d.rest = text' ++ behind) :
    ∃ d', closeTag c' = .ok (mark, d') ∧ TracksText behind frame outer text' d d' ∧
      d'.rest.length < c'.rest.length := by
  obtain ⟨c₁, hflag, hbyte⟩ := closeTag_eq_ok hrun
  obtain ⟨text₁, hc₁⟩ := (advances_byte Byte.closeBrace c₁ hbyte).inside hd
  obtain rfl : text₁ = Byte.closeBrace :: text' := split_byte hc₁ (byte_eq_ok hbyte) hd
  have hnext : ∃ c₁', flag Byte.tilde c' = .ok (mark, c₁') ∧
      Tracks behind (.within (.code 0) (frame :: outer)) (Byte.closeBrace :: text') c₁ c₁' ∧
      c₁'.rest.length ≤ c'.rest.length := by
    refine retrace_mark h hflag hc₁ fun hmark => ?_
    subst hmark
    rcases flag_eq_ok hflag with ⟨hmark, -⟩ | ⟨-, rfl, -⟩
    · cases hmark
    · obtain rfl := List.append_cancel_right (h.rest.symm.trans hc₁)
      rw [head?_squeeze h.fit (settled_of_not_mem (by decide) text')]
      exact ⟨_, rfl, by decide⟩
  obtain ⟨c₁', hflag', h₁, hlength₁⟩ := hnext
  obtain ⟨-, d', hbyte', hfit, hd', hlength⟩ := retrace_closeBrace h₁ hbyte hd
  refine ⟨d', bind_ok hflag' (bind_ok (must_eq_ok.mpr hbyte') rfl), ⟨hd, hfit, hd'⟩, by omega⟩

variable {nested nested' : Nested}

/-- An expression up to the end of the tag, or of the interpolation, that it stands in. -/
theorem NestedRetraces.hole (hn : NestedRetraces behind bound nested nested')
    (h : Tracks behind (.within (.code 0) (frame :: outer)) text c c')
    (hbound : c'.rest.length < bound) {v : Located Expr} {c₁ : Cursor}
    (hspaced : spaced nested c = .ok (v, c₁)) (hclose : closeTag c₁ = .ok (mark, d))
    (hd : d.rest = text' ++ behind) (hjoin : v.value.joinable = true) :
    ∃ v' c₁' d', spaced nested' c' = .ok (v', c₁') ∧ closeTag c₁' = .ok (mark, d') ∧
      TracksText behind frame outer text' d d' ∧ d'.rest.length < c'.rest.length := by
  obtain ⟨text₁, hc₁⟩ := (advances_closeTag c₁ hclose).inside hd
  obtain ⟨b, rest, rfl, hb⟩ := closeTag_head hc₁ hclose hd
  have hend : Fit (.within (.code 0) (frame :: outer)) (b :: rest) →
      Ended v.value (squeeze (uncommented (.within (.code 0) (frame :: outer)) (b :: rest))) := by
    intro hfit
    refine (noOperator_of_head? fun e he => ?_).ended v.value
    rw [head?_squeeze hfit (settled_of_not_mem (by rcases hb with rfl | rfl <;> decide) rest)] at he
    obtain rfl : b = e := by simpa using he
    rcases hb with rfl | rfl <;> decide
  obtain ⟨v', c₁', hspaced', h₁, -, hlength₁, -⟩ := hn.operand h hbound hspaced hc₁ hjoin hend
  obtain ⟨d', hclose', htracks, hlength⟩ := retrace_closeTag h₁ hclose hd
  exact ⟨v', c₁', d', hspaced', hclose', htracks, by omega⟩

/-! ### The opening of a tag -/

theorem openTag_eq_ok (h : openTag c = .ok (mark, d)) :
    ∃ c₁ c₂, exactly [Byte.percent, Byte.openBrace] c = .ok (⟨⟩, c₁) ∧
      flag Byte.tilde c₁ = .ok (mark, c₂) ∧ blankLines c₂ = .ok (⟨⟩, d) := by
  obtain ⟨_, c₁, hopen, h⟩ := bind_eq_ok.mp h
  obtain ⟨mark', c₂, hflag, h⟩ := bind_eq_ok.mp h
  obtain ⟨_, c₃, hblank, h⟩ := bind_eq_ok.mp h
  cases h
  exact ⟨c₁, c₂, hopen, hflag, hblank⟩

theorem split_exactly {expected : Bytes} {value : Unit} (hc : c.rest = text ++ behind)
    (hrun : exactly expected c = .ok (value, d)) (hd : d.rest = text' ++ behind) :
    text = expected ++ text' := by
  have hrest := exactly_eq_ok hrun
  rw [hc, hd, ← List.append_assoc] at hrest
  exact List.append_cancel_right hrest

theorem isBlank_identStart (hb : isIdentStart b = true) :
    Byte.isBlank b = false ∧ b ≠ Byte.hash ∧ b ≠ Byte.slash ∧ b ≠ Byte.tilde := by
  have hall : ∀ b : UInt8, isIdentStart b = true →
      Byte.isBlank b = false ∧ b ≠ Byte.hash ∧ b ≠ Byte.slash ∧ b ≠ Byte.tilde :=
    Byte.forall_of_lt (by decide +kernel)
  exact hall b hb

/-- A tag opens in front of its word. -/
theorem openTag_tag (hframe : Textual frame) (hfit : Fit (.within frame outer) text)
    (hc : c.rest = text ++ behind) (hrun : openTag c = .ok (mark, d))
    (hd : d.rest = text' ++ behind) :
    ∃ tag, text = Byte.percent :: Byte.openBrace :: tag ∧ text' = tagWord tag := by
  obtain ⟨c₁, c₂, hopen, hflag, hblank⟩ := openTag_eq_ok hrun
  obtain ⟨text₂, hc₂⟩ := (advances_blankLines c₂ hblank).inside hd
  obtain ⟨tag, hc₁⟩ := (advances_flag Byte.tilde c₁ hflag).inside hc₂
  obtain rfl : text = Byte.percent :: Byte.openBrace :: tag := split_exactly hc hopen hc₁
  have hpasses := hfit.passes_opening hframe (Or.inr rfl)
  refine ⟨tag, rfl, ?_⟩
  rcases flag_eq_ok hflag with ⟨-, hrest⟩ | ⟨-, rfl, hne⟩
  · obtain rfl := split_byte hc₁ hrest hc₂
    have hmark := hpasses.fit.passes_flat (b := Byte.tilde) (by decide)
    rw [tagWord, if_pos List.head?_cons, List.tail_cons]
    exact (separator_passes hmark.fit hc₂ hblank hd).1
  · obtain rfl := List.append_cancel_right (hc₁.symm.trans hc₂)
    have hmark : ¬ tag.head? = some Byte.tilde := by
      intro hhead
      obtain ⟨rest, rfl⟩ := List.head?_eq_some_iff.mp hhead
      exact hne (by rw [hc₁]; rfl)
    rw [tagWord, if_neg hmark]
    exact (separator_passes hpasses.fit hc₁ hblank hd).1

theorem retrace_openTag (hframe : Textual frame) (h : TracksText behind frame outer text c c')
    (hrun : openTag c = .ok (mark, d)) (hd : d.rest = text' ++ behind)
    (hword : ∃ b ∈ text'.head?, isIdentStart b = true) :
    ∃ tag d', text' = tagWord tag ∧ openTag c' = .ok (mark, d') ∧
      Tracks behind (.within (.code 0) (framesBehindTag frame outer tag)) text' d d' ∧
      d'.rest = squeeze (uncommented (.within (.code 0) (framesBehindTag frame outer tag)) text') ∧
      d'.rest.length < c'.rest.length := by
  obtain ⟨tag, rfl, htag⟩ := openTag_tag hframe h.fit h.rest hrun hd
  obtain ⟨c₁, c₂, hopen, hflag, hblank⟩ := openTag_eq_ok hrun
  obtain ⟨text₂, hc₂⟩ := (advances_blankLines c₂ hblank).inside hd
  obtain ⟨tag', hc₁⟩ := (advances_flag Byte.tilde c₁ hflag).inside hc₂
  obtain rfl : tag' = tag := by
    have hsplit : Byte.percent :: Byte.openBrace :: tag = Byte.percent :: Byte.openBrace :: tag' :=
      split_exactly h.rest hopen hc₁
    simpa using hsplit.symm
  have hpasses := h.fit.passes_opening hframe (Or.inr rfl)
  rw [if_pos rfl] at hpasses
  have hrest := h.tidy
  rw [hpasses.squeezeBehind (forall_mem_of_all rfl)] at hrest
  obtain ⟨c₁', hopen', hc₁'⟩ := exactly_ok hrest
  have h₁ : Tracks behind (.within (.code 0) (framesBehindTag frame outer tag')) tag' c₁ c₁' :=
    ⟨hc₁, hpasses.fit, Or.inr hc₁'⟩
  obtain ⟨b, hb, hstart⟩ := hword
  obtain ⟨hblank', hhash, hslash, htilde⟩ := isBlank_identStart hstart
  obtain ⟨rest, rfl⟩ := List.head?_eq_some_iff.mp hb
  have hnext : mark = false →
      ∃ b ∈ (squeeze (uncommented (.within (.code 0) (framesBehindTag frame outer tag'))
        text₂)).head?, b ≠ Byte.tilde := by
    intro hmark
    subst hmark
    rcases flag_eq_ok hflag with ⟨hmark, -⟩ | ⟨-, rfl, -⟩
    · cases hmark
    · obtain rfl := List.append_cancel_right (hc₁.symm.trans hc₂)
      obtain ⟨hfit, hsame, -⟩ := retrace_separator h₁.fit h₁.rest hblank hd
      rw [hsame, head?_squeeze hfit (settled_of_not_mem ⟨hblank', hhash, hslash⟩ rest)]
      exact ⟨b, rfl, htilde⟩
  obtain ⟨c₂', hflag', h₂, hlength₂⟩ := retrace_mark h₁ hflag hc₂ hnext
  obtain ⟨d', hblank'', htracks, hd', -, hlength, -⟩ := retrace_blank h₂ hblank hd true
  refine ⟨tag', d', htag, bind_ok hopen' (bind_ok hflag' (bind_ok hblank'' rfl)), htracks, hd', ?_⟩
  rw [hrest, List.length_append]
  rw [hc₁'] at hlength₂
  simp only [List.length_cons, List.length_nil]
  omega

end

end HclToJson.Grammar
