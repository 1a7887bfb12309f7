import HclToJson.Proofs.Requote.Template

namespace HclToJson.Parser

theorem Chain.reaches {α : Type} {p : Parser α} {c d : Cursor} {values : List α}
    (h : Chain p c values d) (hp : Advances p) : c.Reaches d := by
  induction h with
  | nil c => exact .refl c
  | cons h _ ih => exact (hp _ h).trans ih

end HclToJson.Parser

namespace HclToJson.Grammar

open Comment Text HclToJson.Parser

/-- A parser for the literal parts of templates in a frame. -/
structure LiteralRetraces (literal : Parser String) (frame : Frame) : Prop where
  textual : Textual frame
  advances : Advances literal
  retrace : ∀ ⦃behind outer text text' c c' d value⦄, TracksText behind frame outer text c c' →
    literal c = .ok (value, d) → d.rest = text' ++ behind →
    ∃ value' d', literal c' = .ok (value', d') ∧ TracksText behind frame outer text' d d' ∧
      d'.rest.length < c'.rest.length
  miss : ∀ ⦃c⦄, opensMarker c.rest = true → doubledMarker? c.rest = none →
    literal c = .error .miss

theorem literalRetraces_quotedText : LiteralRetraces quotedText .string where
  textual := Or.inl rfl
  advances := advances_quotedText
  retrace _ _ _ _ _ _ _ _ h hrun hd := retrace_quotedText h hrun hd
  miss _ hopens hdoubled := quotedText_miss ⟨hdoubled, fun _ _ => Or.inr hopens⟩

theorem literalRetraces_rawText : LiteralRetraces (rawText fun _ => false) .body where
  textual := Or.inr rfl
  advances := advances_rawText _
  retrace _ _ _ _ _ _ _ _ h hrun hd := retrace_rawText h hrun hd
  miss _ hopens hdoubled := rawText_miss ⟨hdoubled, Or.inr hopens⟩ _

section

variable {behind text text' : Bytes} {bound braces : Nat} {frame : Frame} {outer : List Frame}
  {c c' d : Cursor} {nested nested' : Nested} {literal : Parser String}

theorem element_eq_ok {v : Located Element} (h : element literal nested c = .ok (v, d)) :
    (∃ value, literal c = .ok (value, d) ∧ v.value = .literal value) ∨
      interpolation nested c = .ok (v.value, d) ∨ choice nested c = .ok (v.value, d) ∨
      repetition nested c = .ok (v.value, d) := by
  rcases either_eq_ok.mp (located_eq_ok h) with hliteral | ⟨-, h⟩
  · rw [map_eq] at hliteral
    split at hliteral
    · rename_i value _ hvalue
      obtain ⟨hsame, rfl⟩ := Prod.mk.inj (Except.ok.inj hliteral)
      exact Or.inl ⟨value, hvalue, hsame.symm⟩
    · cases hliteral
  · rcases either_eq_ok.mp h with h | ⟨-, h⟩
    · exact Or.inr (Or.inl h)
    · rcases either_eq_ok.mp h with h | ⟨-, h⟩
      · exact Or.inr (Or.inr (Or.inl h))
      · exact Or.inr (Or.inr (Or.inr h))

theorem opensMarker_opening {b : UInt8} (hb : b = Byte.dollar ∨ b = Byte.percent) (rest : Bytes) :
    opensMarker (b :: Byte.openBrace :: rest) = true := by
  rcases hb with rfl | rfl <;> rfl

theorem interpolation_miss_of_tag {mark : Bool} (hopen : openTag c = .ok (mark, d)) :
    interpolation nested c = .error .miss := by
  obtain ⟨c₁, -, hexactly, -⟩ := openTag_eq_ok hopen
  have hmiss : exactly [Byte.dollar, Byte.openBrace] c = .error .miss := by
    refine exactly_miss ?_
    rw [exactly_eq_ok hexactly]
    rfl
  rw [interpolation, bind_ok_eq (get_eq c), bind_error hmiss]

theorem opensMarker_of_tag {mark : Bool} (hopen : openTag c = .ok (mark, d)) :
    opensMarker c.rest = true := by
  obtain ⟨c₁, -, hexactly, -⟩ := openTag_eq_ok hopen
  rw [exactly_eq_ok hexactly]
  exact opensMarker_opening (Or.inr rfl) _

theorem opensMarker_of_element {e : Element}
    (h : interpolation nested c = .ok (e, d) ∨ choice nested c = .ok (e, d) ∨
      repetition nested c = .ok (e, d)) : opensMarker c.rest = true := by
  rcases h with hinterpolation | hchoice | hrepetition
  · obtain ⟨_, _, _, _, _, _, _, hexactly, -⟩ := interpolation_eq_ok hinterpolation
    rw [exactly_eq_ok hexactly]
    exact opensMarker_opening (Or.inl rfl) _
  · obtain ⟨_, _, _, _, _, _, _, _, _, _, _, _, _, _, _, hopen, -⟩ := choice_eq_ok hchoice
    exact opensMarker_of_tag hopen
  · obtain ⟨_, _, _, _, _, _, _, _, _, _, _, _, _, _, _, _, hopen, -⟩ :=
      repetition_eq_ok hrepetition
    exact opensMarker_of_tag hopen

/-- Where a marker opens, neither reader finds a literal. -/
theorem LiteralRetraces.missing (hl : LiteralRetraces literal frame)
    (h : TracksText behind frame outer text c c') (hopens : opensMarker c.rest = true) :
    literal c' = .error .miss := by
  rw [h.rest] at hopens
  obtain ⟨hopens', hdoubled⟩ := carries_opensMarker hl.textual h.fit hopens
  rw [← h.tidy] at hopens' hdoubled
  exact hl.miss hopens' hdoubled

/-- A part of a template is read from both texts. -/
theorem retrace_element (hl : LiteralRetraces literal frame)
    (hn : NestedRetraces behind bound nested nested') (hends : Ends behind)
    (h : TracksText behind frame outer text c c') (hbound : c'.rest.length ≤ bound)
    {v : Located Element} (hrun : element literal nested c = .ok (v, d))
    (hd : d.rest = text' ++ behind) (hjoin : Expr.joinableElements [v.value] = true) :
    ∃ v' d', element literal nested' c' = .ok (v', d') ∧ TracksText behind frame outer text' d d' ∧
      d'.rest.length < c'.rest.length := by
  rcases element_eq_ok hrun with ⟨value, hliteral, -⟩ | hmarked
  · obtain ⟨value', d', hliteral', htracks, hlength⟩ := hl.retrace h hliteral hd
    exact ⟨_, d', located_ok (either_ok (map_ok hliteral')), htracks, hlength⟩
  · have hliteral := map_miss (f := Element.literal) (hl.missing h (opensMarker_of_element hmarked))
    rcases hmarked with hinterpolation | hchoice | hrepetition
    · obtain ⟨e', d', hrun', htracks, hlength⟩ :=
        retrace_interpolation hn hends hl.textual h hbound hinterpolation hd hjoin
      exact ⟨_, d', located_ok ((either_miss hliteral).trans (either_ok hrun')), htracks, hlength⟩
    · obtain ⟨e', d', hrun', htracks, hlength⟩ :=
        retrace_choice hn hl.textual h hbound hchoice hd hjoin
      obtain ⟨_, _, _, _, _, _, _, _, _, _, _, _, _, _, _, hopen, -⟩ := choice_eq_ok hrun'
      exact ⟨_, d', located_ok ((either_miss hliteral).trans
        ((either_miss (interpolation_miss_of_tag hopen)).trans (either_ok hrun'))), htracks,
          hlength⟩
    · obtain ⟨e', d', hrun', hchoice, htracks, hlength⟩ :=
        retrace_repetition hn hl.textual h hbound hrepetition hd hjoin
      obtain ⟨_, _, _, _, _, _, _, _, _, _, _, _, _, _, _, _, hopen, -⟩ :=
        repetition_eq_ok hrun'
      exact ⟨_, d', located_ok ((either_miss hliteral).trans
        ((either_miss (interpolation_miss_of_tag hopen)).trans
          ((either_miss hchoice).trans hrun'))),
        htracks, hlength⟩

theorem joinableElements_cons (v : Located Element) (parts : List (Located Element)) :
    Expr.joinableElements (values (v :: parts)) =
      (Expr.joinableElements [v.value] && Expr.joinableElements (values parts)) := by
  obtain ⟨e, span⟩ := v
  cases e <;> simp [values, Expr.joinableElements, Bool.and_assoc]

/-- The parts of a template are read from both texts, one by one. -/
theorem retrace_elements (hl : LiteralRetraces literal frame)
    (hn : NestedRetraces behind bound nested nested') (hends : Ends behind)
    {parts : List (Located Element)} (hrun : Chain (element literal nested) c parts d)
    (h : TracksText behind frame outer text c c') (hbound : c'.rest.length ≤ bound)
    (hd : d.rest = text' ++ behind) (hjoin : Expr.joinableElements (values parts) = true)
    (hstop : ∀ d', TracksText behind frame outer text' d d' →
      element literal nested' d' = .error .miss) :
    ∃ parts' d', Repeats (element literal nested') c' parts' d' ∧
      TracksText behind frame outer text' d d' ∧ d'.rest.length ≤ c'.rest.length := by
  induction hrun generalizing text c' with
  | nil c =>
      obtain rfl := List.append_cancel_right (h.rest.symm.trans hd)
      exact ⟨[], c', .stop (hstop c' h), h, Nat.le_refl _⟩
  | cons hfirst hothers ih =>
      rw [joinableElements_cons, Bool.and_eq_true] at hjoin
      obtain ⟨text₁, hc₁⟩ :=
        (hothers.reaches (advances_element hn.advances hl.advances)).inside hd
      obtain ⟨v', c₁', hfirst', h₁, hlength₁⟩ :=
        retrace_element hl hn hends h hbound hfirst hc₁ hjoin.1
      obtain ⟨parts', d', hothers', htracks, hlength⟩ := ih h₁ (by omega) hd hjoin.2 hstop
      exact ⟨v' :: parts', d', .next hfirst' hlength₁ hothers', htracks, by omega⟩

/-- A template ends where a tag ends a part of a directive. -/
theorem element_miss (hl : LiteralRetraces literal frame) (hend : BodyEnded behind c)
    (h : TracksText behind frame outer text c c') :
    element literal nested' c' = .error .miss := by
  obtain ⟨mark, c₁, rest, hopen, hrest⟩ := hend
  have hc₁ : c₁.rest = 0x65 :: rest ++ behind := hrest
  obtain ⟨tag, c₁', -, hopen', h₁, hc₁', -⟩ :=
    retrace_openTag hl.textual h hopen hc₁ ⟨0x65, rfl, by decide⟩
  have hhead : c₁'.rest.head? = some 0x65 := by
    rw [hc₁', head?_squeeze h₁.fit (settled_of_not_mem (by decide) rest)]
    rfl
  obtain ⟨others, hothers⟩ := List.head?_eq_some_iff.mp hhead
  have hliteral := hl.missing h (opensMarker_of_tag hopen)
  have hif : keyword "if" c₁' = .error .miss := exactly_miss (by rw [hothers, encode_if]; rfl)
  have hfor : keyword "for" c₁' = .error .miss := exactly_miss (by rw [hothers, encode_for]; rfl)
  have hchoice : choice nested' c' = .error .miss := by
    rw [choice, bind_ok_eq (get_eq c'), bind_ok_eq hopen', bind_error hif]
  have hrepetition : repetition nested' c' = .error .miss := by
    rw [repetition, bind_ok_eq (get_eq c'), bind_ok_eq hopen', bind_error hfor]
  rw [element, located_eq, either_miss (map_miss hliteral),
    either_miss (interpolation_miss_of_tag hopen'), either_miss hchoice, hrepetition]

/-- The body of a directive is read from both texts. -/
theorem retrace_rawTemplate (hn : NestedRetraces behind bound nested nested') (hends : Ends behind)
    (h : TracksText behind .body outer text c c') (hbound : c'.rest.length ≤ bound)
    {parts : List (Located Element)} (hrun : rawTemplate nested c = .ok (parts, d))
    (hd : d.rest = text' ++ behind) (hjoin : Expr.joinableElements (values parts) = true)
    (hend : BodyEnded behind d) :
    ∃ parts' d', rawTemplate nested' c' = .ok (parts', d') ∧
      TracksText behind .body outer text' d d' ∧ d'.rest.length ≤ c'.rest.length := by
  obtain ⟨parts', d', hrun', htracks, hlength⟩ := retrace_elements literalRetraces_rawText hn hends
    (chain_of_many hrun) h hbound hd hjoin fun d' h' => element_miss literalRetraces_rawText hend h'
  exact ⟨parts', d', hrun'.many, htracks, hlength⟩

/-! ### Quoted strings -/

/-- A quoted string starts in code. -/
theorem retrace_openQuote {value : Unit}
    (h : Tracks behind (.within (.code braces) outer) text c c')
    (hrun : byte Byte.quote c = .ok (value, d)) (hd : d.rest = text' ++ behind) :
    ∃ d', byte Byte.quote c' = .ok (⟨⟩, d') ∧
      TracksText behind .string (.code braces :: outer) text' d d' ∧
      d'.rest.length < c'.rest.length := by
  obtain rfl := split_byte h.rest (byte_eq_ok hrun) hd
  have hopens : ¬ Opens Byte.quote text' := fun hopens =>
    hopens.eq_hash_or_slash.elim (by decide) (by decide)
  have hpasses := h.fit.passes_code hopens
  rw [Spot.next_code hopens, if_pos rfl] at hpasses
  have hrest := h.cons hpasses (whiteLength_token (by decide) _)
  obtain ⟨d', hbyte, hd'⟩ := byte_ok hrest
  refine ⟨d', hbyte, ⟨hd, hpasses.fit, hd'⟩, ?_⟩
  rw [hrest, hd', List.length_cons]
  exact Nat.lt_succ_self _

/-- Behind a quoted string code goes on. -/
theorem retrace_closeQuote {value : Unit}
    (h : TracksText behind .string (.code braces :: outer) text c c')
    (hrun : byte Byte.quote c = .ok (value, d)) (hd : d.rest = text' ++ behind) :
    ∃ d', byte Byte.quote c' = .ok (⟨⟩, d') ∧
      Tracks behind (.within (.code braces) outer) text' d d' ∧
      d'.rest.length < c'.rest.length := by
  obtain rfl := split_byte h.rest (byte_eq_ok hrun) hd
  have hpasses := h.fit.passes_kept rfl
  have hnext : (Spot.within .string (.code braces :: outer)).next Byte.quote text' =
      .within (.code braces) outer := rfl
  rw [hnext] at hpasses
  have hrest := h.tidy
  rw [hpasses.squeezeBehind (List.forall_mem_singleton.mpr (by decide))] at hrest
  obtain ⟨d', hbyte, hd'⟩ := byte_ok hrest
  refine ⟨d', hbyte, ⟨hd, hpasses.fit, Or.inr hd'⟩, ?_⟩
  rw [hrest, hd', List.singleton_append, List.length_cons]
  exact Nat.lt_succ_self _

theorem quotedStop_quote (hhead : c.rest.head? = some Byte.quote) : QuotedStop c.rest := by
  obtain ⟨rest, hrest⟩ := List.head?_eq_some_iff.mp hhead
  rw [hrest]
  exact ⟨doubledMarker?_of_ne (by decide) rest, fun b hb => Or.inl (Option.some.inj hb).symm⟩

/-- At a quote both readers of a string see it, and only there. -/
theorem TracksText.quote (h : TracksText behind .string outer text c c') :
    c'.rest.head? = some Byte.quote ↔ text.head? = some Byte.quote := by
  rw [h.tidy]
  constructor
  · exact fun hhead => head?_of_textual (Or.inl rfl) hhead (by decide)
  · intro hhead
    obtain ⟨rest, rfl⟩ := List.head?_eq_some_iff.mp hhead
    rw [(h.fit.passes_kept rfl).squeezeBehind (List.forall_mem_singleton.mpr (by decide))]
    rfl

theorem plainString_eq_ok {value : String} (h : plainString c = .ok (value, d)) :
    ∃ c₁ c₂ content, byte Byte.quote c = .ok (⟨⟩, c₁) ∧
      Parser.optional quotedText c₁ = .ok (content, c₂) ∧ byte Byte.quote c₂ = .ok (⟨⟩, d) := by
  obtain ⟨_, c₁, hopen, h⟩ := bind_eq_ok.mp h
  obtain ⟨content, c₂, hcontent, h⟩ := bind_eq_ok.mp h
  obtain ⟨_, c₃, hclose, h⟩ := bind_eq_ok.mp h
  cases h
  exact ⟨c₁, c₂, content, hopen, hcontent, hclose⟩

/-- A string without interpolations and directives is read from both texts. -/
theorem retrace_plainString {value : String}
    (h : Tracks behind (.within (.code braces) outer) text c c')
    (hrun : plainString c = .ok (value, d)) (hd : d.rest = text' ++ behind) :
    ∃ value' d', plainString c' = .ok (value', d') ∧
      Tracks behind (.within (.code braces) outer) text' d d' ∧
      d'.rest.length < c'.rest.length := by
  obtain ⟨c₁, c₂, content, hopen, hcontent, hclose⟩ := plainString_eq_ok hrun
  obtain ⟨text₂, hc₂⟩ := (advances_byte Byte.quote c₂ hclose).inside hd
  obtain ⟨text₁, hc₁⟩ := (advances_quotedText.optional c₁ hcontent).inside hc₂
  obtain ⟨c₁', hopen', h₁, hlength₁⟩ := retrace_openQuote h hopen hc₁
  have hbetween : ∃ content' c₂', Parser.optional quotedText c₁' = .ok (content', c₂') ∧
      TracksText behind .string (.code braces :: outer) text₂ c₂ c₂' ∧
      c₂'.rest.length ≤ c₁'.rest.length := by
    rcases optional_eq_ok.mp hcontent with ⟨value, rfl, hvalue⟩ | ⟨rfl, rfl, -⟩
    · obtain ⟨value', c₂', hvalue', h₂, hlength₂⟩ := retrace_quotedText h₁ hvalue hc₂
      exact ⟨some value', c₂', optional_ok hvalue', h₂, Nat.le_of_lt hlength₂⟩
    · obtain rfl := List.append_cancel_right (hc₁.symm.trans hc₂)
      have hquote : c₁'.rest.head? = some Byte.quote := by
        rw [h₁.quote, split_byte hc₂ (byte_eq_ok hclose) hd]
        rfl
      exact ⟨none, c₁', optional_miss (quotedText_miss (quotedStop_quote hquote)), h₁,
        Nat.le_refl _⟩
  obtain ⟨content', c₂', hcontent', h₂, hlength₂⟩ := hbetween
  obtain ⟨d', hclose', htracks, hlength⟩ := retrace_closeQuote h₂ hclose hd
  exact ⟨content'.getD "", d', bind_ok hopen' (bind_ok hcontent' (bind_ok hclose' rfl)), htracks,
    by omega⟩

theorem quotedTemplate_eq_ok {e : Expr} (h : quotedTemplate nested c = .ok (e, d)) :
    ∃ c₁ c₂ parts layout, byte Byte.quote c = .ok (⟨⟩, c₁) ∧
      Parser.many (element quotedText nested) c₁ = .ok (parts, c₂) ∧
      byte Byte.quote c₂ = .ok (⟨⟩, d) ∧ e = .template layout (values parts) := by
  obtain ⟨start, _, hstart, h⟩ := bind_eq_ok.mp h
  cases hstart
  obtain ⟨_, c₁, hopen, h⟩ := bind_eq_ok.mp h
  obtain ⟨parts, c₂, hparts, h⟩ := bind_eq_ok.mp h
  obtain ⟨_, c₃, hclose, h⟩ := bind_eq_ok.mp h
  cases h
  exact ⟨c₁, c₂, parts, _, hopen, hparts, hclose, rfl⟩

theorem quotedTemplate_ok {c₁ c₂ : Cursor} {parts : List (Located Element)}
    (hopen : byte Byte.quote c = .ok (⟨⟩, c₁))
    (hparts : Parser.many (element quotedText nested) c₁ = .ok (parts, c₂))
    (hclose : byte Byte.quote c₂ = .ok (⟨⟩, d)) :
    ∃ layout, quotedTemplate nested c = .ok (.template layout (values parts), d) :=
  ⟨_, bind_ok (get_eq c) (bind_ok hopen (bind_ok hparts (bind_ok hclose rfl)))⟩

theorem element_miss_quote (hhead : c.rest.head? = some Byte.quote) :
    element quotedText nested c = .error .miss := by
  obtain ⟨rest, hrest⟩ := List.head?_eq_some_iff.mp hhead
  have hliteral := quotedText_miss (quotedStop_quote hhead)
  have hdollar : exactly [Byte.dollar, Byte.openBrace] c = .error .miss :=
    exactly_miss (by rw [hrest]; rfl)
  have hpercent : exactly [Byte.percent, Byte.openBrace] c = .error .miss :=
    exactly_miss (by rw [hrest]; rfl)
  have hopen : openTag c = .error .miss := by rw [openTag, bind_error hpercent]
  have hinterpolation : interpolation nested c = .error .miss := by
    rw [interpolation, bind_ok_eq (get_eq c), bind_error hdollar]
  have hchoice : choice nested c = .error .miss := by
    rw [choice, bind_ok_eq (get_eq c), bind_error hopen]
  have hrepetition : repetition nested c = .error .miss := by
    rw [repetition, bind_ok_eq (get_eq c), bind_error hopen]
  rw [element, located_eq, either_miss (map_miss hliteral), either_miss hinterpolation,
    either_miss hchoice, hrepetition]

/-- A string that is no plain one is none for the other reader either: no quote stands behind its
first literal. -/
theorem retrace_plainString_miss (hn : NestedRetraces behind bound nested nested')
    {c₁ c₂ c₁' : Cursor}
    {parts : List (Located Element)} (hmiss : plainString c = .error .miss)
    (hopen : byte Byte.quote c = .ok (⟨⟩, c₁))
    (hparts : Chain (element quotedText nested) c₁ parts c₂)
    (hclose : byte Byte.quote c₂ = .ok (⟨⟩, d)) (hd : d.rest = text' ++ behind)
    (hopen' : byte Byte.quote c' = .ok (⟨⟩, c₁'))
    (h : TracksText behind .string outer text c₁ c₁') :
    plainString c' = .error .miss := by
  have hquote : ∀ {content c₃}, Parser.optional quotedText c₁ = .ok (content, c₃) →
      c₃.rest.head? ≠ some Byte.quote := by
    intro content c₃ hcontent hhead
    obtain ⟨rest, hrest⟩ := List.head?_eq_some_iff.mp hhead
    obtain ⟨c₄, hbyte, -⟩ := byte_ok hrest
    have hplain : plainString c = .ok (content.getD "", c₄) :=
      bind_ok hopen (bind_ok hcontent (bind_ok hbyte rfl))
    rw [hplain] at hmiss
    cases hmiss
  have hplain : ∀ {content c₃'}, Parser.optional quotedText c₁' = .ok (content, c₃') →
      c₃'.rest.head? ≠ some Byte.quote → plainString c' = .error .miss := by
    intro content c₃' hcontent hhead
    rw [plainString, bind_ok_eq hopen', bind_ok_eq hcontent, bind_error (byte_miss hhead)]
  obtain ⟨text₂, hc₂⟩ := (advances_byte Byte.quote c₂ hclose).inside hd
  cases hparts with
  | nil =>
      have hhead : c₁.rest.head? = some Byte.quote := by
        rw [byte_eq_ok hclose]
        rfl
      exact absurd hhead (hquote (optional_miss (quotedText_miss (quotedStop_quote hhead))))
  | cons hfirst hothers =>
      rcases element_eq_ok hfirst with ⟨value, hliteral, -⟩ | hmarked
      · obtain ⟨text₃, hc₃⟩ :=
          (hothers.reaches (advances_element hn.advances advances_quotedText)).inside hc₂
        obtain ⟨value', c₃', hliteral', h₃, -⟩ := retrace_quotedText h hliteral hc₃
        refine hplain (optional_ok hliteral') fun hhead => hquote (optional_ok hliteral) ?_
        obtain ⟨rest, rfl⟩ := List.head?_eq_some_iff.mp (h₃.quote.mp hhead)
        rw [hc₃]
        rfl
      · have hopens := opensMarker_of_element hmarked
        refine hplain (optional_miss (literalRetraces_quotedText.missing h hopens)) fun hhead => ?_
        obtain ⟨rest, rfl⟩ := List.head?_eq_some_iff.mp (h.quote.mp hhead)
        rw [h.rest, List.cons_append, opensMarker_of_ne (by decide)] at hopens
        cases hopens

/-- A string, plain or not, is read from both texts as one of the same kind. -/
theorem retrace_string (hn : NestedRetraces behind bound nested nested') (hends : Ends behind)
    (h : Tracks behind (.within (.code braces) outer) text c c') (hbound : c'.rest.length ≤ bound)
    {e : Expr} (hrun : string nested c = .ok (e, d)) (hd : d.rest = text' ++ behind)
    (hjoin : e.joinable = true) :
    ∃ e' d', string nested' c' = .ok (e', d') ∧
      Tracks behind (.within (.code braces) outer) text' d d' ∧
      d'.rest.length < c'.rest.length ∧ e'.form = e.form := by
  obtain ⟨start, _, hstart, hrun⟩ := bind_eq_ok.mp hrun
  cases hstart
  obtain ⟨plain, c₀, hplain, hrun⟩ := bind_eq_ok.mp hrun
  rcases optional_eq_ok.mp hplain with ⟨value, rfl, hvalue⟩ | ⟨rfl, rfl, hmiss⟩
  · cases hrun
    obtain ⟨value', d', hvalue', htracks, hlength⟩ := retrace_plainString h hvalue hd
    exact ⟨_, d', bind_ok (get_eq c') (bind_ok (optional_ok hvalue') rfl), htracks, hlength, rfl⟩
  · obtain ⟨c₁, c₂, parts, layout, hopen, hparts, hclose, rfl⟩ := quotedTemplate_eq_ok hrun
    have hchain := chain_of_many hparts
    have helement := advances_element hn.advances advances_quotedText
    obtain ⟨text₂, hc₂⟩ := (advances_byte Byte.quote c₂ hclose).inside hd
    obtain ⟨text₁, hc₁⟩ := (hchain.reaches helement).inside hc₂
    have htext₂ := split_byte hc₂ (byte_eq_ok hclose) hd
    obtain ⟨c₁', hopen', h₁, hlength₁⟩ := retrace_openQuote h hopen hc₁
    obtain ⟨parts', c₂', hparts', h₂, hlength₂⟩ := retrace_elements literalRetraces_quotedText hn
      hends hchain h₁ (by omega) hc₂ (by simpa [Expr.joinable] using hjoin) fun d' h' =>
        element_miss_quote (h'.quote.mpr (by rw [htext₂]; rfl))
    obtain ⟨d', hclose', htracks, hlength⟩ := retrace_closeQuote h₂ hclose hd
    have hmiss' := retrace_plainString_miss hn hmiss hopen hchain hclose hd hopen' h₁
    obtain ⟨layout', hrun'⟩ := quotedTemplate_ok hopen' hparts'.many hclose'
    exact ⟨.template layout' (values parts'), d',
      bind_ok (get_eq c') (bind_ok (optional_miss hmiss') hrun'), htracks, by omega, rfl⟩

end

end HclToJson.Grammar
