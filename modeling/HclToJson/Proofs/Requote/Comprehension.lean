import HclToJson.Proofs.Requote.List

namespace HclToJson.Grammar

open Comment Text HclToJson.Parser

/-- Whether a text goes on as a comprehension does: with `for` and a blank, or a comment. -/
def forAhead (text : Bytes) : Bool :=
  (encode "for").isPrefixOf text &&
    ((text.drop 3).head? = some Byte.space || (text.drop 3).head? = some Byte.tab ||
      (text.drop 3).head? = some Byte.hash || (text.drop 3).head? = some Byte.slash)

section

variable {behind text text' : Bytes} {bound braces : Nat} {outer : List Frame} {c c' d : Cursor}
  {nested nested' : Nested} {b : UInt8}

theorem opensComprehension_eq (h : blankLines c = .ok (⟨⟩, d)) :
    opensComprehension c = .ok (forAhead d.rest, c) := by
  cases hfor : (encode "for").isPrefixOf d.rest with
  | true =>
      obtain ⟨rest, hrest⟩ := List.isPrefixOf_iff_prefix.mp hfor
      obtain ⟨d₁, hkeyword, hd₁⟩ := exactly_ok (c := d) hrest.symm
      have hdrop : d.rest.drop 3 = rest := by
        rw [← hrest, encode_for]
        rfl
      simp only [opensComprehension, bind_eq, get_eq, h, keyword, optional_eq, hkeyword, ahead_eq,
        set_eq, pure_eq, forAhead, hfor, hdrop, hd₁, Option.isSome_some]
  | false =>
      have hmiss : keyword "for" d = .error .miss := exactly_miss hfor
      simp only [opensComprehension, bind_eq, get_eq, h, optional_eq, hmiss, ahead_eq, set_eq,
        pure_eq, forAhead, hfor, Option.isSome_none, Bool.false_and]

theorem forAhead_iff {text : Bytes} :
    forAhead text = true ↔ ∃ b rest, text = encode "for" ++ b :: rest ∧
      b ∈ [Byte.space, Byte.tab, Byte.hash, Byte.slash] := by
  constructor
  · intro h
    simp only [forAhead, Bool.and_eq_true, Bool.or_eq_true, decide_eq_true_eq] at h
    obtain ⟨hspelled, hhead⟩ := h
    obtain ⟨rest, rfl⟩ := List.isPrefixOf_iff_prefix.mp hspelled
    have hdrop : (encode "for" ++ rest).drop 3 = rest := by
      rw [encode_for]
      rfl
    rw [hdrop] at hhead
    cases rest with
    | nil => simp at hhead
    | cons b rest => exact ⟨b, rest, rfl, by simpa [or_assoc] using hhead⟩
  · rintro ⟨b, rest, rfl, hb⟩
    have hdrop : (encode "for" ++ b :: rest).drop 3 = b :: rest := by
      rw [encode_for]
      rfl
    simpa [forAhead, hdrop, or_assoc] using hb

/-- A word at the start of the squeezed text is one in the text. -/
theorem word_behind {word tidy : Bytes} (h : Fit (.within (.code braces) outer) (b :: text))
    (hb : isIdentContinue b = true) (hword : ∀ e ∈ word, isIdentContinue e = true)
    (htidy : squeezeBehind (uncommented (.within (.code braces) outer) text) = word ++ tidy) :
    ∃ rest, text = word ++ rest ∧
      tidy = squeezeBehind (uncommented (.within (.code braces) outer) rest) := by
  induction word generalizing b text with
  | nil => exact ⟨text, rfl, htidy.symm⟩
  | cons e word ih =>
      obtain ⟨he, hword⟩ := List.forall_mem_cons.mp hword
      have hflat := (flat_of_isIdentContinue hb).1
      have hnext : (Spot.within (.code braces) outer).next b text = .within (.code braces) outer :=
        next_flat ⟨hflat.1, hflat.2.1, hflat.2.2.1⟩ hflat.not_opens
      have hfirst : (squeezeBehind (uncommented (.within (.code braces) outer) text)).head? =
          some e := by
        rw [htidy]
        rfl
      have hhead := joins_of_head? h hnext hfirst (Or.inl ⟨hb, he⟩)
      obtain ⟨text, rfl⟩ := List.head?_eq_some_iff.mp hhead
      have hfit : Fit (.within (.code braces) outer) ([e] ++ text) := (h.passes_flat hflat).fit
      have hrun := (Fit.run hfit (List.forall_mem_singleton.mpr (flat_of_isIdentContinue he))).2
      rw [List.singleton_append, htidy] at hrun
      obtain ⟨rest, rfl, hrest⟩ := ih hfit he hword (List.cons.inj hrun).2.symm
      exact ⟨rest, rfl, hrest⟩

theorem squeeze_run {word : Bytes} (h : Fit (.within (.code braces) outer) (word ++ text))
    (hne : word ≠ []) (hword : ∀ b ∈ word, Flat b ∧ Byte.isBlank b = false) :
    squeeze (uncommented (.within (.code braces) outer) (word ++ text)) =
      word ++ squeezeBehind (uncommented (.within (.code braces) outer) text) := by
  have htracks : Tracks [] (.within (.code braces) outer) (word ++ text) ⟨0, word ++ text⟩
      ⟨0, squeeze (uncommented (.within (.code braces) outer) (word ++ text))⟩ :=
    ⟨(List.append_nil _).symm, h, Or.inl rfl⟩
  exact (htracks.run hne hword).2

theorem continue_for : ∀ b ∈ encode "for", isIdentContinue b = true := forall_mem_of_all rfl

/-- The squeezed text of a comprehension goes on as one. -/
theorem forAhead_squeeze (h : Fit (.within (.code braces) outer) (encode "for" ++ text))
    (hraw : forAhead (encode "for" ++ text ++ behind) = true)
    (hword : ∃ b ∈ (squeeze (uncommented (.within (.code braces) outer) text)).head?,
      isIdentStart b = true) :
    forAhead (squeeze (uncommented (.within (.code braces) outer) (encode "for" ++ text))) =
      true := by
  have hflat : ∀ b ∈ encode "for", Flat b ∧ Byte.isBlank b = false := fun b hb =>
    flat_of_isIdentContinue (continue_for b hb)
  rw [squeeze_run h forWord.ne_nil hflat, forAhead_iff]
  obtain ⟨b, hb, hstart⟩ := hword
  obtain ⟨e, rest, heq, he⟩ := forAhead_iff.mp hraw
  rw [List.append_assoc] at heq
  have htext := List.append_cancel_left heq
  rcases squeezeBehind_cases (uncommented (.within (.code braces) outer) text) with hsame | hspace
  · have hlast : (encode "for").getLast? = some 0x72 := rfl
    have hhead := Fit.run_joins h hflat hlast (e := b) (by rw [hsame]; exact hb)
      (Or.inl ⟨by decide, isIdentContinue_of_isIdentStart hstart⟩)
    obtain ⟨text, rfl⟩ := List.head?_eq_some_iff.mp hhead
    obtain ⟨rfl, -⟩ := List.cons.inj htext
    have hnot : ∀ e ∈ [Byte.space, Byte.tab, Byte.hash, Byte.slash], ¬ isIdentStart e = true :=
      forall_mem_of_all rfl
    exact absurd hstart (hnot b he)
  · exact ⟨Byte.space, _, by rw [hspace], by decide⟩

/-- What is no comprehension does not become one, unless its word `for` is at the end of a line. -/
theorem not_forAhead_squeeze (h : Fit (.within (.code braces) outer) text) (hsettled : Settled text)
    (hline : ¬ (encode "for" ++ [Byte.newline]) <+: text)
    (hreturn : ¬ (encode "for" ++ [Byte.carriageReturn]) <+: text)
    (hraw : forAhead (text ++ behind) = false) :
    forAhead (squeeze (uncommented (.within (.code braces) outer) text)) = false := by
  rw [Bool.eq_false_iff]
  intro htidy
  obtain ⟨x, tidy, heq, hx⟩ := forAhead_iff.mp htidy
  have hfirst : (squeeze (uncommented (.within (.code braces) outer) text)).head? = some 0x66 := by
    rw [heq, encode_for]
    rfl
  rw [head?_squeeze h hsettled] at hfirst
  obtain ⟨text, rfl⟩ := List.head?_eq_some_iff.mp hfirst
  rw [squeeze_token h (by decide), encode_for, List.cons_append] at heq
  have hbehindF : squeezeBehind (uncommented (.within (.code braces) outer) text) =
      [0x6F, 0x72] ++ x :: tidy := (List.cons.inj heq).2
  obtain ⟨rest, rfl, hrest⟩ := word_behind h (by decide) (forall_mem_of_all rfl) hbehindF
  have hfit : Fit (.within (.code braces) outer) ([0x66, 0x6F, 0x72] ++ rest) := h
  have hbehind := (Fit.run hfit fun b hb => flat_of_isIdentContinue
    (continue_for b (by rw [encode_for]; exact hb))).1.fit
  cases rest with
  | nil => simp [uncommented, squeezeBehind] at hrest
  | cons y rest =>
      have hy : y ∉ [Byte.space, Byte.tab, Byte.hash, Byte.slash] := fun hmem => by
        have htrue : forAhead (0x66 :: ([0x6F, 0x72] ++ y :: rest) ++ behind) = true :=
          forAhead_iff.mpr ⟨y, rest ++ behind, by rw [encode_for]; rfl, hmem⟩
        rw [htrue] at hraw
        cases hraw
      have hopens : ¬ Opens y rest := fun hopens => hy <| by
        rcases hopens.eq_hash_or_slash with rfl | rfl <;> decide
      cases hblank : Byte.isBlank y with
      | true =>
          simp only [Byte.isBlank, Bool.or_eq_true, decide_eq_true_eq] at hblank
          rcases hblank with ((rfl | rfl) | rfl) | rfl
          · exact hy (by decide)
          · exact hy (by decide)
          · exact hline ⟨rest, by rw [encode_for]; rfl⟩
          · exact hreturn ⟨rest, by rw [encode_for]; rfl⟩
      | false =>
          rw [(hbehind.passes_code hopens).uncommented, List.singleton_append,
            squeezeBehind_inked (hbehind.inked hblank)] at hrest
          exact hy ((List.cons.inj hrest).1 ▸ hx)

/-- The word behind white space and comments, at the end of its line. -/
theorem endsInFor_of_word {value : Unit} {line : UInt8}
    (h : Fit (.within (.code braces) outer) text) (hc : c.rest = text ++ behind)
    (hrun : blankLines c = .ok (value, d)) (hd : d.rest = text' ++ behind)
    (hspelled : (encode "for" ++ [line]) <+: text')
    (hline : line = Byte.newline ∨ line = Byte.carriageReturn) :
    EndsInFor (.within (.code braces) outer) text := by
  obtain ⟨-, blanks, hblanks, hpasses⟩ := separator_passes h hc hrun hd
  refine ⟨text', ?_, ?_, ?_⟩
  · obtain ⟨read, hread, -⟩ := advances_blankLines c hrun
    rw [hc, hd, ← List.append_assoc] at hread
    obtain rfl := List.append_cancel_right hread
    exact (List.mem_tails text' (read ++ text')).mpr (List.suffix_append read text')
  · rcases hline with rfl | rfl
    · exact Or.inl (List.isPrefixOf_iff_prefix.mpr hspelled)
    · exact Or.inr (List.isPrefixOf_iff_prefix.mpr hspelled)
  · rw [hpasses.uncommented, List.dropWhile_append_of_pos hblanks]
    obtain ⟨rest, rfl⟩ := hspelled
    rw [List.append_assoc] at hpasses ⊢
    rw [(Fit.run hpasses.fit fun b hb => flat_of_isIdentContinue (continue_for b hb)).1.uncommented,
      encode_for]
    rfl

/-- Both readers find a comprehension, or none. -/
theorem retrace_opensComprehension {loops : Bool}
    (h : Tracks behind (.within (.code braces) outer) text c c')
    (hfor : ¬ EndsInFor (.within (.code braces) outer) text)
    (hblank : blankLines c = .ok (⟨⟩, d)) (hd : d.rest = text' ++ behind)
    (hloops : forAhead d.rest = loops)
    (hnext : loops = true → ∃ rest, text' = encode "for" ++ rest ∧
      ∃ b ∈ (squeeze (uncommented (.within (.code braces) outer) rest)).head?,
        isIdentStart b = true) :
    opensComprehension c' = .ok (loops, c') := by
  obtain ⟨hfit, hsame, hsettled⟩ := retrace_separator h.fit h.rest hblank hd
  obtain ⟨d', hblank', hd', -⟩ := separator_tidy h true
  rw [opensComprehension_eq hblank', hd', hsame]
  cases loops with
  | true =>
      obtain ⟨rest, rfl, hword⟩ := hnext rfl
      rw [hd] at hloops
      rw [forAhead_squeeze hfit hloops hword]
  | false =>
      rw [hd] at hloops
      rw [not_forAhead_squeeze hfit (hsettled rfl) ?_ ?_ hloops]
      · exact fun hspelled => hfor (endsInFor_of_word h.fit h.rest hblank hd hspelled (Or.inl rfl))
      · exact fun hspelled => hfor (endsInFor_of_word h.fit h.rest hblank hd hspelled (Or.inr rfl))

/-! ### Brackets -/

/-- The braces around code in brackets: one more in braces. -/
def bracesWithin (curly : Bool) (braces : Nat) : Nat := if curly then braces + 1 else braces

theorem retrace_opener (curly : Bool) {value : Unit}
    (h : Tracks behind (.within (.code braces) outer) text c c')
    (hrun : byte (if curly then Byte.openBrace else Byte.openBracket) c = .ok (value, d))
    (hd : d.rest = text' ++ behind) :
    ∃ d', byte (if curly then Byte.openBrace else Byte.openBracket) c' = .ok (⟨⟩, d') ∧
      Tracks behind (.within (.code (bracesWithin curly braces)) outer) text' d d' ∧
      d'.rest.length < c'.rest.length ∧
      ¬ EndsInFor (.within (.code (bracesWithin curly braces)) outer) text' := by
  cases curly with
  | true =>
      obtain ⟨rfl, d', hbyte', htracks, hlength⟩ := retrace_openBrace h hrun hd
      have hopens : ¬ Opens Byte.openBrace text' := fun hopens =>
        hopens.eq_hash_or_slash.elim (by decide) (by decide)
      have hparts := h.fit.parts.1.2.2 (Or.inr rfl)
      rw [Spot.next_code hopens, if_neg (by decide), if_pos rfl] at hparts
      exact ⟨d', hbyte', htracks, hlength, hparts⟩
  | false =>
      obtain ⟨rfl, d', hbyte', htracks, hlength, -⟩ := retrace_byte h (by decide) hrun hd
      have hparts := h.fit.parts.1.2.2 (Or.inl rfl)
      rw [next_flat (by decide) (Flat.not_opens (by decide))] at hparts
      exact ⟨d', hbyte', htracks, hlength, hparts⟩

theorem retrace_closer (curly : Bool) {value : Unit}
    (h : Tracks behind (.within (.code (bracesWithin curly braces)) outer) text c c')
    (hrun : byte (if curly then Byte.closeBrace else Byte.closeBracket) c = .ok (value, d))
    (hd : d.rest = text' ++ behind) :
    ∃ d', byte (if curly then Byte.closeBrace else Byte.closeBracket) c' = .ok (⟨⟩, d') ∧
      Tracks behind (.within (.code braces) outer) text' d d' ∧
      d'.rest.length < c'.rest.length := by
  cases curly with
  | true =>
      have hopen : Tracks behind (.within (.code (braces + 1)) outer) text c c' := h
      obtain ⟨-, d', hbyte', hfit, hd', hlength⟩ := retrace_closeBrace hopen hrun hd
      exact ⟨d', hbyte', ⟨hd, hfit, Or.inr hd'⟩, hlength⟩
  | false =>
      obtain ⟨-, d', hbyte', htracks, hlength, -⟩ := retrace_byte h (by decide) hrun hd
      exact ⟨d', hbyte', htracks, hlength⟩

theorem ahead_of_closer {curly : Bool} {value : Unit}
    (hrun : byte (if curly then Byte.closeBrace else Byte.closeBracket) c = .ok (value, d))
    (hd : d.rest = text' ++ behind) :
    Ahead behind (if curly then Byte.closeBrace else Byte.closeBracket) c :=
  ahead_of_byte (by cases curly <;> decide) hrun hd

/-! ### The parts of a comprehension -/

theorem ellipsis_eq_ok {spread : Bool} (h : ellipsis c = .ok (spread, d)) :
    (spread = true ∧ exactly [Byte.dot, Byte.dot, Byte.dot] c = .ok (⟨⟩, d)) ∨
      (spread = false ∧ d = c) := by
  obtain ⟨result, c₁, hresult, hrun⟩ := bind_eq_ok.mp h
  cases hrun
  rcases optional_eq_ok.mp hresult with ⟨⟨⟩, rfl, hexactly⟩ | ⟨rfl, rfl, -⟩
  · exact Or.inl ⟨rfl, hexactly⟩
  · exact Or.inr ⟨rfl, rfl⟩

theorem ellipsis_ok (h : exactly [Byte.dot, Byte.dot, Byte.dot] c = .ok (⟨⟩, d)) :
    ellipsis c = .ok (true, d) :=
  bind_ok (optional_ok h) rfl

theorem ellipsis_miss (h : exactly [Byte.dot, Byte.dot, Byte.dot] c = .error .miss) :
    ellipsis c = .ok (false, c) :=
  bind_ok (optional_miss h) rfl

/-- In front of an ellipsis an expression that is no traversal ends. -/
theorem ended_before_ellipsis {e : Expr} {value : Unit} (he : e.endsInSteps = false)
    (hrun : exactly [Byte.dot, Byte.dot, Byte.dot] c = .ok (value, d))
    (hd : d.rest = text' ++ behind)
    (hc : c.rest = text ++ behind) (h : Fit (.within (.code braces) outer) text) :
    Ended e (squeeze (uncommented (.within (.code braces) outer) text)) := by
  obtain rfl := split_exactly hc hrun hd
  have hdots : ∀ b ∈ [Byte.dot, Byte.dot, Byte.dot], TokenByte b := forall_mem_of_all rfl
  rw [squeeze_run h (by simp) fun b hb => (hdots b hb).flat]
  exact ended_of_ellipsis he _

theorem comprehensionKey_eq_ok {curly : Bool} {key : Option (Located Expr)}
    (h : comprehensionKey nested curly c = .ok (key, d)) :
    (curly = false ∧ key = none ∧ d = c) ∨
      ∃ v c₁, curly = true ∧ key = some v ∧ spaced nested c = .ok (v, c₁) ∧
        exactly [Byte.equals, Byte.greater] c₁ = .ok (⟨⟩, d) := by
  cases curly with
  | false =>
      cases h
      exact Or.inl ⟨rfl, rfl, rfl⟩
  | true =>
      obtain ⟨v, c₁, hspaced, hrun⟩ := bind_eq_ok.mp h
      obtain ⟨_, c₂, hsign, hrun⟩ := bind_eq_ok.mp hrun
      cases hrun
      exact Or.inr ⟨v, c₁, rfl, rfl, hspaced, must_eq_ok.mp hsign⟩

/-- The key of a comprehension is read from both texts, or is in neither. -/
theorem retrace_comprehensionKey (hn : NestedRetraces behind bound nested nested') {curly : Bool}
    (h : Tracks behind (.within (.code braces) outer) text c c') (hbound : c'.rest.length < bound)
    {key : Option (Located Expr)} (hrun : comprehensionKey nested curly c = .ok (key, d))
    (hd : d.rest = text' ++ behind) (hjoin : Expr.joinableOptional (key.map (·.value)) = true) :
    ∃ key' d', comprehensionKey nested' curly c' = .ok (key', d') ∧
      Tracks behind (.within (.code braces) outer) text' d d' ∧
      d'.rest.length ≤ c'.rest.length := by
  rcases comprehensionKey_eq_ok hrun with ⟨rfl, rfl, rfl⟩ | ⟨v, c₁, rfl, rfl, hspaced, hsign⟩
  · obtain rfl := List.append_cancel_right (h.rest.symm.trans hd)
    exact ⟨none, c', rfl, h, Nat.le_refl _⟩
  · obtain ⟨text₁, hc₁⟩ := (advances_exactly _ c₁ hsign).inside hd
    have hsplit := split_exactly hc₁ hsign hd
    have hend : Fit (.within (.code braces) outer) text₁ →
        Ended v.value (squeeze (uncommented (.within (.code braces) outer) text₁)) := by
      intro hfit
      subst hsplit
      have hbytes : ∀ b ∈ [Byte.equals, Byte.greater], TokenByte b := forall_mem_of_all rfl
      rw [squeeze_run hfit (by simp) fun b hb => (hbytes b hb).flat]
      exact (noOperator_equals (by simp; decide)).ended v.value
    obtain ⟨v', c₁', hspaced', h₁, -, hlength₁⟩ := hn.spacedOperand h hbound hspaced hc₁ hjoin hend
    obtain ⟨-, d', hsign', htracks, hlength, -⟩ :=
      retrace_exactly h₁ (by simp) (forall_mem_of_all rfl) hsign hd
    exact ⟨some v', d', bind_ok hspaced' (bind_ok (must_eq_ok.mpr hsign') rfl), htracks, by omega⟩

theorem comprehensionFilter_eq_ok {filter : Option (Located Expr)}
    (h : comprehensionFilter nested c = .ok (filter, d)) :
    (filter = none ∧ d = c) ∨
      ∃ v c₁ c₂, filter = some v ∧ blankLines c = .ok (⟨⟩, c₁) ∧ keyword "if" c₁ = .ok (⟨⟩, c₂) ∧
        spaced nested c₂ = .ok (v, d) := by
  rcases optional_eq_ok.mp h with ⟨v, rfl, hv⟩ | ⟨rfl, rfl, -⟩
  · obtain ⟨_, c₁, hblank, hrun⟩ := bind_eq_ok.mp hv
    obtain ⟨_, c₂, hif, hspaced⟩ := bind_eq_ok.mp hrun
    exact Or.inr ⟨v, c₁, c₂, rfl, hblank, hif, hspaced⟩
  · exact Or.inl ⟨rfl, rfl⟩

/-- What stands behind the value of a comprehension, in front of its filter or its end. -/
theorem ahead_of_filter {curly : Bool} {filter : Option (Located Expr)} {c₁ : Cursor}
    (hn : nested.Advances) (hfilter : comprehensionFilter nested c = .ok (filter, c₁))
    (hclose : byte (if curly then Byte.closeBrace else Byte.closeBracket) c₁ = .ok (⟨⟩, d))
    (hd : d.rest = text' ++ behind) :
    ∃ b, b ∉ goingOn ∧ Byte.dot ≠ b ∧ Ahead behind b c := by
  rcases comprehensionFilter_eq_ok hfilter with ⟨rfl, rfl⟩ | ⟨v, c₂, c₃, rfl, hblank, hif, hspaced⟩
  · exact ⟨_, by cases curly <;> decide, by cases curly <;> decide, ahead_of_closer hclose hd⟩
  · obtain ⟨text₁, hc₁⟩ := (advances_byte _ c₁ hclose).inside hd
    obtain ⟨text₃, hc₃⟩ := (advances_spaced hn c₃ hspaced).inside hc₁
    refine ⟨0x69, by decide, by decide, c₂, 0x66 :: text₃, hblank, ?_⟩
    rw [exactly_eq_ok hif, encode_if, hc₃]
    rfl

/-- The filter of a comprehension and its closing bracket are read from both texts. -/
theorem retrace_filterEnd (hn : NestedRetraces behind bound nested nested') {curly : Bool}
    (h : Tracks behind (.within (.code (bracesWithin curly braces)) outer) text c c')
    (hbound : c'.rest.length < bound) {filter : Option (Located Expr)} {c₁ : Cursor}
    (hfilter : comprehensionFilter nested c = .ok (filter, c₁))
    (hclose : byte (if curly then Byte.closeBrace else Byte.closeBracket) c₁ = .ok (⟨⟩, d))
    (hd : d.rest = text' ++ behind) (hjoin : Expr.joinableOptional (filter.map (·.value)) = true) :
    ∃ filter' c₁' d', comprehensionFilter nested' c' = .ok (filter', c₁') ∧
      byte (if curly then Byte.closeBrace else Byte.closeBracket) c₁' = .ok (⟨⟩, d') ∧
      Tracks behind (.within (.code braces) outer) text' d d' ∧
      d'.rest.length < c'.rest.length := by
  obtain ⟨text₁, hc₁⟩ := (advances_byte _ c₁ hclose).inside hd
  have hcloser : (if curly then Byte.closeBrace else Byte.closeBracket) ∉ goingOn := by
    cases curly <;> decide
  rcases comprehensionFilter_eq_ok hfilter with ⟨rfl, rfl⟩ | ⟨v, c₂, c₃, rfl, hblank, hif, hspaced⟩
  · obtain ⟨d', hclose', htracks, hlength⟩ := retrace_closer _ h hclose hd
    obtain ⟨c₂', hblank', hhead⟩ := (ahead_of_closer hclose hd).retrace h
    have hmiss : keyword "if" c₂' = .error .miss := by
      obtain ⟨rest, hrest⟩ := List.head?_eq_some_iff.mp hhead
      refine exactly_miss ?_
      rw [hrest, encode_if]
      cases curly <;> rfl
    exact ⟨none, c', d', optional_miss ((bind_ok_eq hblank').trans (bind_error hmiss)), hclose',
      htracks, hlength⟩
  · obtain ⟨text₃, hc₃⟩ := (advances_spaced hn.advances c₃ hspaced).inside hc₁
    obtain ⟨text₂, hc₂⟩ := (advances_keyword _ c₂ hif).inside hc₃
    obtain ⟨c₂', hblank', h₂, -, -, hlength₂, -⟩ := retrace_blank h hblank hc₂ true
    obtain ⟨-, c₃', hif', h₃, hlength₃, -⟩ :=
      retrace_exactly h₂ ifWord.ne_nil ifWord.bytes hif hc₃
    obtain ⟨v', c₁', hspaced', h₁, -, hlength₁⟩ := hn.spacedOperand h₃ (by omega) hspaced hc₁ hjoin
      fun hfit => (ahead_of_closer hclose hd).ended hcloser v.value hc₁ hfit
    obtain ⟨d', hclose', htracks, hlength⟩ := retrace_closer _ h₁ hclose hd
    exact ⟨some v', c₁', d', optional_ok (bind_ok hblank' (bind_ok hif' hspaced')), hclose',
      htracks,
      by omega⟩

/-- The value of a comprehension is read from both texts, with all that is behind it. -/
theorem retrace_valueEnd (hn : NestedRetraces behind bound nested nested') {curly : Bool}
    (h : Tracks behind (.within (.code (bracesWithin curly braces)) outer) text c c')
    (hbound : c'.rest.length < bound) {value : Located Expr} {grouping : Bool}
    {filter : Option (Located Expr)} {c₁ c₂ c₃ : Cursor}
    (hvalue : spaced nested c = .ok (value, c₁))
    (hgrouping : (if curly then ellipsis else pure false) c₁ = .ok (grouping, c₂))
    (hfilter : comprehensionFilter nested c₂ = .ok (filter, c₃))
    (hclose : byte (if curly then Byte.closeBrace else Byte.closeBracket) c₃ = .ok (⟨⟩, d))
    (hd : d.rest = text' ++ behind) (hjoin : value.value.joinable = true)
    (hsteps : (grouping && value.value.endsInSteps) = false)
    (hfilterJoin : Expr.joinableOptional (filter.map (·.value)) = true) :
    ∃ value' filter' c₁' c₂' c₃' d', spaced nested' c' = .ok (value', c₁') ∧
      (if curly then ellipsis else pure false) c₁' = .ok (grouping, c₂') ∧
      comprehensionFilter nested' c₂' = .ok (filter', c₃') ∧
      byte (if curly then Byte.closeBrace else Byte.closeBracket) c₃' = .ok (⟨⟩, d') ∧
      Tracks behind (.within (.code braces) outer) text' d d' ∧
      d'.rest.length < c'.rest.length := by
  obtain ⟨text₃, hc₃⟩ := (advances_byte _ c₃ hclose).inside hd
  obtain ⟨text₂, hc₂⟩ := (advances_comprehensionFilter hn.advances c₂ hfilter).inside hc₃
  obtain ⟨b, hb, hdot, hahead⟩ := ahead_of_filter hn.advances hfilter hclose hd
  have hgroup : (grouping = true ∧ curly = true ∧
      exactly [Byte.dot, Byte.dot, Byte.dot] c₁ = .ok (⟨⟩, c₂)) ∨ (grouping = false ∧ c₂ = c₁) := by
    cases curly with
    | true => exact (ellipsis_eq_ok hgrouping).imp (fun h => ⟨h.1, rfl, h.2⟩) id
    | false =>
        cases hgrouping
        exact Or.inr ⟨rfl, rfl⟩
  rcases hgroup with ⟨rfl, rfl, hdots⟩ | ⟨rfl, rfl⟩
  · obtain ⟨text₁, hc₁⟩ := (advances_exactly _ c₁ hdots).inside hc₂
    obtain ⟨value', c₁', hvalue', h₁, -, hlength₁⟩ := hn.spacedOperand h hbound hvalue hc₁ hjoin
      fun hfit => ended_before_ellipsis (by simpa using hsteps) hdots hc₂ hc₁ hfit
    obtain ⟨-, c₂', hdots', h₂, hlength₂, -⟩ :=
      retrace_exactly h₁ (by simp) (forall_mem_of_all rfl) hdots hc₂
    obtain ⟨filter', c₃', d', hfilter', hclose', htracks, hlength⟩ :=
      retrace_filterEnd hn h₂ (by omega) hfilter hclose hd hfilterJoin
    exact ⟨value', filter', c₁', c₂', c₃', d', hvalue', ellipsis_ok hdots', hfilter', hclose',
      htracks, by omega⟩
  · obtain ⟨value', c₁', hvalue', h₁, -, hlength₁⟩ := hn.spacedOperand h hbound hvalue hc₂ hjoin
      fun hfit => hahead.ended hb value.value hc₂ hfit
    have hgrouping' : (if curly then ellipsis else pure false) c₁' = .ok (false, c₁') := by
      cases curly with
      | true => exact ellipsis_miss (hahead.exactly_miss h₁ rfl ⟨hdot, by decide⟩)
      | false => rfl
    obtain ⟨filter', c₃', d', hfilter', hclose', htracks, hlength⟩ :=
      retrace_filterEnd hn h₁ (by omega) hfilter hclose hd hfilterJoin
    exact ⟨value', filter', c₁', c₁', c₃', d', hvalue', hgrouping', hfilter', hclose', htracks,
      by omega⟩

theorem comprehension_eq_ok {start : Cursor} {curly : Bool} {e : Expr}
    (h : comprehension nested start curly c = .ok (e, d)) :
    ∃ c₁ c₂ c₃ c₄ c₅ c₆ c₇ c₈ c₉ c₁₀ c₁₁ names collection key value grouping filter layout,
      blankLines c = .ok (⟨⟩, c₁) ∧ keyword "for" c₁ = .ok (⟨⟩, c₂) ∧
      blankLines c₂ = .ok (⟨⟩, c₃) ∧ loop c₃ = .ok (names, c₄) ∧
      keyword "in" c₄ = .ok (⟨⟩, c₅) ∧ spaced nested c₅ = .ok (collection, c₆) ∧
      byte Byte.colon c₆ = .ok (⟨⟩, c₇) ∧ comprehensionKey nested curly c₇ = .ok (key, c₈) ∧
      spaced nested c₈ = .ok (value, c₉) ∧
      (if curly then ellipsis else pure false) c₉ = .ok (grouping, c₁₀) ∧
      comprehensionFilter nested c₁₀ = .ok (filter, c₁₁) ∧
      byte (if curly then Byte.closeBrace else Byte.closeBracket) c₁₁ = .ok (⟨⟩, d) ∧
      e = .comprehension layout names collection.value (key.map (·.value)) value.value grouping
        (filter.map (·.value)) := by
  obtain ⟨_, c₁, hblank, h⟩ := bind_eq_ok.mp h
  obtain ⟨_, c₂, hfor, h⟩ := bind_eq_ok.mp h
  obtain ⟨_, c₃, hblank', h⟩ := bind_eq_ok.mp h
  obtain ⟨names, c₄, hloop, h⟩ := bind_eq_ok.mp h
  obtain ⟨_, c₅, hin, h⟩ := bind_eq_ok.mp h
  obtain ⟨collection, c₆, hcollection, h⟩ := bind_eq_ok.mp h
  obtain ⟨_, c₇, hcolon, h⟩ := bind_eq_ok.mp h
  obtain ⟨key, c₈, hkey, h⟩ := bind_eq_ok.mp h
  obtain ⟨value, c₉, hvalue, h⟩ := bind_eq_ok.mp h
  obtain ⟨grouping, c₁₀, hgrouping, h⟩ := bind_eq_ok.mp h
  obtain ⟨filter, c₁₁, hfilter, h⟩ := bind_eq_ok.mp h
  obtain ⟨_, c₁₂, hclose, h⟩ := bind_eq_ok.mp h
  cases h
  exact ⟨c₁, c₂, c₃, c₄, c₅, c₆, c₇, c₈, c₉, c₁₀, c₁₁, names, collection, key, value,
    grouping, filter,
    _, hblank, hfor, hblank', hloop, must_eq_ok.mp hin, hcollection, must_eq_ok.mp hcolon, hkey,
    hvalue, hgrouping, hfilter, must_eq_ok.mp hclose, rfl⟩

/-- A comprehension is read from both texts. -/
theorem retrace_comprehension (hn : NestedRetraces behind bound nested nested')
    {curly : Bool} {start : Cursor} (start' : Cursor)
    (h : Tracks behind (.within (.code (bracesWithin curly braces)) outer) text c c')
    (hfor : ¬ EndsInFor (.within (.code (bracesWithin curly braces)) outer) text)
    (hbound : c'.rest.length < bound) {e : Expr}
    (hopens : opensComprehension c = .ok (true, c))
    (hrun : comprehension nested start curly c = .ok (e, d)) (hd : d.rest = text' ++ behind)
    (hjoin : e.joinable = true) :
    ∃ e' d', opensComprehension c' = .ok (true, c') ∧
      comprehension nested' start' curly c' = .ok (e', d') ∧
      Tracks behind (.within (.code braces) outer) text' d d' ∧
      d'.rest.length < c'.rest.length ∧ e'.form = .quoted ∧ e.form = .quoted := by
  obtain ⟨c₁, c₂, c₃, c₄, c₅, c₆, c₇, c₈, c₉, c₁₀, c₁₁, names, collection, key, value,
    grouping, filter,
    layout, hblank, hword, hblank₂, hloop, hin, hcollection, hcolon, hkey, hvalue, hgrouping,
      hfilter,
    hclose, rfl⟩ := comprehension_eq_ok hrun
  simp only [Expr.joinable, Bool.and_eq_true, Bool.not_eq_true'] at hjoin
  obtain ⟨⟨⟨⟨hsteps, hcollectionJoin⟩, hkeyJoin⟩, hvalueJoin⟩, hfilterJoin⟩ := hjoin
  have hadvances := hn.advances
  obtain ⟨text₁₁, hc₁₁⟩ := (advances_byte _ c₁₁ hclose).inside hd
  obtain ⟨text₁₀, hc₁₀⟩ := (advances_comprehensionFilter hadvances c₁₀ hfilter).inside hc₁₁
  obtain ⟨text₉, hc₉⟩ := (Advances.ite advances_ellipsis
    (advances_pure false) c₉ hgrouping).inside hc₁₀
  obtain ⟨text₈, hc₈⟩ := (advances_spaced hadvances c₈ hvalue).inside hc₉
  obtain ⟨text₇, hc₇⟩ := (advances_comprehensionKey hadvances curly c₇ hkey).inside hc₈
  obtain ⟨text₆, hc₆⟩ := (advances_byte _ c₆ hcolon).inside hc₇
  obtain ⟨text₅, hc₅⟩ := (advances_spaced hadvances c₅ hcollection).inside hc₆
  obtain ⟨text₄, hc₄⟩ := (advances_keyword _ c₄ hin).inside hc₅
  obtain ⟨text₃, hc₃⟩ := (advances_loop c₃ hloop).inside hc₄
  obtain ⟨text₂, hc₂⟩ := (advances_blankLines c₂ hblank₂).inside hc₃
  obtain ⟨text₁, hc₁⟩ := (advances_keyword _ c₁ hword).inside hc₂
  obtain ⟨c₁', hblank', h₁, -, -, hlength₁, -⟩ := retrace_blank h hblank hc₁ true
  obtain ⟨rfl, c₂', hword', h₂, hlength₂, -⟩ :=
    retrace_exactly h₁ forWord.ne_nil forWord.bytes hword hc₂
  obtain ⟨c₃', hblank₂', h₃, -, hsame, hlength₃, hsettled⟩ := retrace_blank h₂ hblank₂ hc₃ true
  obtain ⟨⟨b, hb, hstart⟩, c₄', hloop', h₄, -, hlength₄⟩ := retrace_loop h₃ hloop hc₄
  have hopens' : opensComprehension c' = .ok (true, c') := by
    rw [opensComprehension_eq hblank] at hopens
    refine retrace_opensComprehension h hfor hblank hc₁
      (congrArg Prod.fst (Except.ok.inj hopens)) fun _ => ⟨text₂, rfl, b, ?_, hstart⟩
    rw [hsame, head?_squeeze h₃.fit (hsettled rfl)]
    exact hb
  obtain ⟨-, c₅', hin', h₅, hlength₅, -⟩ := retrace_exactly h₄ inWord.1 inWord.2 hin hc₅
  obtain ⟨collection', c₆', hcollection', h₆, -, hlength₆⟩ := hn.spacedOperand h₅ (by omega)
    hcollection hc₆ hcollectionJoin fun hfit =>
      (ahead_of_byte (by decide) hcolon hc₇).ended (by decide) collection.value hc₆ hfit
  obtain ⟨-, c₇', hcolon', h₇, hlength₇, -⟩ := retrace_byte h₆ (by decide) hcolon hc₇
  obtain ⟨key', c₈', hkey', h₈, hlength₈⟩ :=
    retrace_comprehensionKey hn h₇ (by omega) hkey hc₈ hkeyJoin
  obtain ⟨value', filter', c₉', c₁₀', c₁₁', d', hvalue', hgrouping', hfilter', hclose', htracks,
    hlength⟩ := retrace_valueEnd hn h₈ (by omega) hvalue hgrouping hfilter hclose hd
      hvalueJoin hsteps
      hfilterJoin
  exact ⟨_, d', hopens', bind_ok hblank' (bind_ok hword' (bind_ok hblank₂' (bind_ok hloop'
    (bind_ok (must_eq_ok.mpr hin') (bind_ok hcollection' (bind_ok (must_eq_ok.mpr hcolon')
      (bind_ok hkey' (bind_ok hvalue' (bind_ok hgrouping' (bind_ok hfilter'
        (bind_ok (must_eq_ok.mpr hclose') rfl))))))))))), htracks, by omega, rfl, rfl⟩

end

end HclToJson.Grammar
