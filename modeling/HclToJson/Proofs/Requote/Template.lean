import HclToJson.Proofs.Requote.Tag

namespace HclToJson.Grammar

open Comment Text HclToJson.Parser

section

variable {behind text text' : Bytes} {bound braces : Nat} {frame : Frame} {outer : List Frame}
  {c c' d : Cursor} {b : UInt8}

/-! ### Loops -/

theorem loop_eq_ok {names : Loop} (h : loop c = .ok (names, d)) :
    ∃ first c₁ c₂, ident c = .ok (first, c₁) ∧ blankLines c₁ = .ok (⟨⟩, c₂) ∧
      ((names = ⟨none, first⟩ ∧ d = c₂ ∧ c₂.rest.head? ≠ some Byte.comma) ∨
        ∃ second c₃ c₄ c₅, byte Byte.comma c₂ = .ok (⟨⟩, c₃) ∧ blankLines c₃ = .ok (⟨⟩, c₄) ∧
          ident c₄ = .ok (second, c₅) ∧ blankLines c₅ = .ok (⟨⟩, d) ∧
          names = ⟨some first, second⟩) := by
  obtain ⟨first, c₁, hfirst, h⟩ := bind_eq_ok.mp h
  obtain ⟨_, c₂, hblank, h⟩ := bind_eq_ok.mp h
  obtain ⟨second, c₃, hsecond, hnames⟩ := bind_eq_ok.mp h
  refine ⟨first, c₁, c₂, must_eq_ok.mp hfirst, hblank, ?_⟩
  rcases optional_eq_ok.mp hsecond with ⟨name, rfl, hname⟩ | ⟨rfl, rfl, hmiss⟩
  · obtain ⟨_, c₄, hcomma, hname⟩ := bind_eq_ok.mp hname
    obtain ⟨_, c₅, hblank', hname⟩ := bind_eq_ok.mp hname
    obtain ⟨name', c₆, hident, hname⟩ := bind_eq_ok.mp hname
    obtain ⟨_, c₇, hblank'', hname⟩ := bind_eq_ok.mp hname
    cases hname
    cases hnames
    exact Or.inr ⟨name, c₄, c₅, c₆, hcomma, hblank', must_eq_ok.mp hident, hblank'', rfl⟩
  · cases hnames
    refine Or.inl ⟨rfl, rfl, fun hhead => ?_⟩
    obtain ⟨rest, hrest⟩ := List.head?_eq_some_iff.mp hhead
    obtain ⟨c₄, hcomma, -⟩ := byte_ok hrest
    have hblank' := separator_eq true c₄
    rw [bind_ok_eq hcomma, bind_ok_eq (p := blankLines) hblank'] at hmiss
    cases hident : ident ⟨c₄.pos + blankLength true c₄.rest c₄.rest,
        c₄.rest.drop (blankLength true c₄.rest c₄.rest)⟩ with
    | error refusal =>
        have hmust : must ident _ = .error .wrong := (must_eq ident _).trans (by rw [hident])
        rw [bind_error hmust] at hmiss
        cases hmiss
    | ok pair =>
        have hmust := must_eq_ok.mpr hident
        rw [bind_ok_eq hmust, bind_ok_eq (p := blankLines) (separator_eq true pair.2)] at hmiss
        cases hmiss

theorem loop_ok {names : Loop} {first : String} {c₁ c₂ : Cursor}
    (hfirst : ident c = .ok (first, c₁)) (hblank : blankLines c₁ = .ok (⟨⟩, c₂))
    (hsecond : (names = ⟨none, first⟩ ∧ d = c₂ ∧ c₂.rest.head? ≠ some Byte.comma) ∨
      ∃ second c₃ c₄ c₅, byte Byte.comma c₂ = .ok (⟨⟩, c₃) ∧ blankLines c₃ = .ok (⟨⟩, c₄) ∧
        ident c₄ = .ok (second, c₅) ∧ blankLines c₅ = .ok (⟨⟩, d) ∧
        names = ⟨some first, second⟩) :
    loop c = .ok (names, d) := by
  refine bind_ok (must_eq_ok.mpr hfirst) (bind_ok hblank ?_)
  rcases hsecond with ⟨rfl, rfl, hne⟩ | ⟨second, c₃, c₄, c₅, hcomma, hblank', hident, hblank'', rfl⟩
  · exact bind_ok (optional_miss (bind_error (byte_miss hne))) rfl
  · exact bind_ok (optional_ok (bind_ok hcomma (bind_ok hblank' (bind_ok (must_eq_ok.mpr hident)
      (bind_ok hblank'' rfl))))) rfl

/-- The names of a loop are read from both texts. -/
theorem retrace_loop {names : Loop} (h : Tracks behind (.within (.code braces) outer) text c c')
    (hrun : loop c = .ok (names, d)) (hd : d.rest = text' ++ behind) :
    (∃ b ∈ text.head?, isIdentStart b = true) ∧ ∃ d', loop c' = .ok (names, d') ∧
      Tracks behind (.within (.code braces) outer) text' d d' ∧
      d'.rest = squeeze (uncommented (.within (.code braces) outer) text') ∧
      d'.rest.length < c'.rest.length := by
  obtain ⟨first, c₁, c₂, hfirst, hblank, hsecond⟩ := loop_eq_ok hrun
  obtain ⟨text₂, hc₂⟩ : ∃ text₂, c₂.rest = text₂ ++ behind := by
    rcases hsecond with ⟨-, rfl, -⟩ | ⟨second, c₃, c₄, c₅, hcomma, hblank', hident, hblank'', -⟩
    · exact ⟨text', hd⟩
    · obtain ⟨text₅, hc₅⟩ := (advances_blankLines c₅ hblank'').inside hd
      obtain ⟨text₄, hc₄⟩ := (advances_ident c₄ hident).inside hc₅
      obtain ⟨text₃, hc₃⟩ := (advances_blankLines c₃ hblank').inside hc₄
      exact (advances_byte Byte.comma c₂ hcomma).inside hc₃
  obtain ⟨text₁, hc₁⟩ := (advances_blankLines c₁ hblank).inside hc₂
  have hhead : ∃ b ∈ text.head?, isIdentStart b = true := by
    obtain ⟨b, others, hrest, hb, -⟩ := ident_eq_ok hfirst
    rw [h.rest, hc₁, ← List.append_assoc] at hrest
    obtain rfl := List.append_cancel_right hrest
    exact ⟨b, rfl, hb⟩
  obtain ⟨c₁', hfirst', h₁, hlength₁⟩ := retrace_ident h hfirst hc₁
  obtain ⟨c₂', hblank', h₂, hc₂', -, hlength₂, hsettled⟩ := retrace_blank h₁ hblank hc₂ true
  refine ⟨hhead, ?_⟩
  rcases hsecond with ⟨rfl, rfl, hne⟩ |
    ⟨second, c₃, c₄, c₅, hcomma, hblank₃, hident, hblank₅, rfl⟩
  · obtain rfl := List.append_cancel_right (hc₂.symm.trans hd)
    refine ⟨c₂', loop_ok hfirst' hblank' (Or.inl ⟨rfl, rfl, fun hcomma => hne ?_⟩), h₂, hc₂',
      by omega⟩
    rw [h₂.head?_settled (hsettled rfl)] at hcomma
    obtain ⟨rest, rfl⟩ := List.head?_eq_some_iff.mp hcomma
    rw [h₂.rest]
    rfl
  · obtain ⟨text₅, hc₅⟩ := (advances_blankLines c₅ hblank₅).inside hd
    obtain ⟨text₄, hc₄⟩ := (advances_ident c₄ hident).inside hc₅
    obtain ⟨text₃, hc₃⟩ := (advances_blankLines c₃ hblank₃).inside hc₄
    obtain ⟨-, c₃', hcomma', h₃, hlength₃, -⟩ := retrace_byte h₂ (by decide) hcomma hc₃
    obtain ⟨c₄', hblank₃', h₄, -, -, hlength₄, -⟩ := retrace_blank h₃ hblank₃ hc₄ true
    obtain ⟨c₅', hident', h₅, hlength₅⟩ := retrace_ident h₄ hident hc₅
    obtain ⟨d', hblank₅', htracks, hd', -, hlength, -⟩ := retrace_blank h₅ hblank₅ hd true
    exact ⟨d', loop_ok hfirst' hblank' (Or.inr ⟨second, c₃', c₄', c₅', hcomma', hblank₃', hident',
      hblank₅', rfl⟩), htracks, hd', by omega⟩

/-! ### Tags of a word -/

theorem wordTag_eq_ok {word : String} {trim : Trim} (h : wordTag word c = .ok (trim, d)) :
    ∃ before after c₁ c₂ c₃, openTag c = .ok (before, c₁) ∧ keyword word c₁ = .ok (⟨⟩, c₂) ∧
      blankLines c₂ = .ok (⟨⟩, c₃) ∧ closeTag c₃ = .ok (after, d) ∧ trim = ⟨before, after⟩ := by
  obtain ⟨before, c₁, hopen, h⟩ := bind_eq_ok.mp h
  obtain ⟨_, c₂, hkeyword, h⟩ := bind_eq_ok.mp h
  obtain ⟨_, c₃, hblank, h⟩ := bind_eq_ok.mp h
  obtain ⟨after, c₄, hclose, h⟩ := bind_eq_ok.mp h
  cases h
  exact ⟨before, after, c₁, c₂, c₃, hopen, hkeyword, hblank, hclose, rfl⟩

/-- A word of the language that a tag may have. -/
structure TagWord (word : String) : Prop where
  start : ∃ b ∈ (encode word).head?, isIdentStart b = true
  bytes : ∀ b ∈ encode word, TokenByte b

theorem TagWord.ne_nil {word : String} (hword : TagWord word) : encode word ≠ [] := by
  obtain ⟨b, hb, -⟩ := hword.start
  intro hnil
  simp [hnil] at hb

theorem TagWord.head? {word : String} (hword : TagWord word) (rest : Bytes) :
    ∃ b ∈ (encode word ++ rest).head?, isIdentStart b = true := by
  obtain ⟨b, hb, hstart⟩ := hword.start
  exact ⟨b, by rw [List.head?_append_of_ne_nil _ hword.ne_nil]; exact hb, hstart⟩

/-- A tag and its word are read from both texts. -/
theorem retrace_tagWord {word : String} (hword : TagWord word) {mark : Bool} {c₁ : Cursor}
    {value : Unit} (hframe : Textual frame) (h : TracksText behind frame outer text c c')
    (hopen : openTag c = .ok (mark, c₁)) (hkeyword : keyword word c₁ = .ok (value, d))
    (hd : d.rest = text' ++ behind) {frames : List Frame}
    (hframes : ∀ tag, encode word <+: tagWord tag → framesBehindTag frame outer tag = frames) :
    ∃ c₁' d' rest, openTag c' = .ok (mark, c₁') ∧ c₁'.rest = encode word ++ rest ∧
      keyword word c₁' = .ok (⟨⟩, d') ∧ Tracks behind (.within (.code 0) frames) text' d d' ∧
      d'.rest.length < c'.rest.length := by
  obtain ⟨text₁, hc₁⟩ := (advances_keyword word c₁ hkeyword).inside hd
  obtain rfl : text₁ = encode word ++ text' := split_exactly hc₁ hkeyword hd
  obtain ⟨tag, c₁', htag, hopen', h₁, hc₁', hlength₁⟩ :=
    retrace_openTag hframe h hopen hc₁ (hword.head? text')
  rw [hframes tag ⟨text', htag⟩] at h₁
  obtain ⟨-, d', hkeyword', htracks, hlength, -⟩ :=
    retrace_exactly h₁ hword.ne_nil hword.bytes hkeyword hd
  obtain ⟨-, hrest⟩ := Tracks.run h₁ hword.ne_nil fun b hb => (hword.bytes b hb).flat
  exact ⟨c₁', d', _, hopen', hrest, hkeyword', htracks, by omega⟩

/-- A tag that consists of a word is read from both texts. -/
theorem retrace_wordTag {word : String} (hword : TagWord word) {trim : Trim}
    (hframe : Textual frame) (h : TracksText behind frame outer text c c')
    (hrun : wordTag word c = .ok (trim, d)) (hd : d.rest = text' ++ behind) {frame' : Frame}
    {outer' : List Frame}
    (hframes : ∀ tag, encode word <+: tagWord tag →
      framesBehindTag frame outer tag = frame' :: outer') :
    ∃ mark c₁' rest d', openTag c' = .ok (mark, c₁') ∧ c₁'.rest = encode word ++ rest ∧
      wordTag word c' = .ok (trim, d') ∧ TracksText behind frame' outer' text' d d' ∧
      d'.rest.length < c'.rest.length := by
  obtain ⟨before, after, c₁, c₂, c₃, hopen, hkeyword, hblank, hclose, rfl⟩ := wordTag_eq_ok hrun
  obtain ⟨text₃, hc₃⟩ := (advances_closeTag c₃ hclose).inside hd
  obtain ⟨text₂, hc₂⟩ := (advances_blankLines c₂ hblank).inside hc₃
  obtain ⟨c₁', c₂', rest, hopen', hrest, hkeyword', h₂, hlength₂⟩ :=
    retrace_tagWord hword hframe h hopen hkeyword hc₂ hframes
  obtain ⟨c₃', hblank', h₃, -, -, hlength₃, -⟩ := retrace_blank h₂ hblank hc₃ true
  obtain ⟨d', hclose', htracks, hlength⟩ := retrace_closeTag h₃ hclose hd
  exact ⟨before, c₁', rest, d', hopen', hrest, bind_ok hopen' (bind_ok hkeyword'
    (bind_ok hblank' (bind_ok hclose' rfl))), htracks, by omega⟩

theorem bodyEnded_wordTag {word : String} {trim : Trim} {others : Bytes}
    (hfirst : encode word = 0x65 :: others) (hrun : wordTag word c = .ok (trim, d))
    (hd : d.rest = text' ++ behind) : BodyEnded behind c := by
  obtain ⟨before, after, c₁, c₂, c₃, hopen, hkeyword, hblank, hclose, rfl⟩ := wordTag_eq_ok hrun
  obtain ⟨text₃, hc₃⟩ := (advances_closeTag c₃ hclose).inside hd
  obtain ⟨text₂, hc₂⟩ := (advances_blankLines c₂ hblank).inside hc₃
  refine ⟨before, c₁, others ++ text₂, hopen, ?_⟩
  rw [exactly_eq_ok hkeyword, hfirst, hc₂]
  simp

/-- Where another word stands in a tag, the tag of a word is missing. -/
theorem wordTag_miss_of_open {word : String} {mark : Bool} {c₁ : Cursor} {rest other : Bytes}
    (hopen : openTag c = .ok (mark, c₁)) (hrest : c₁.rest = other ++ rest)
    (hother : ∀ rest, (encode word).isPrefixOf (other ++ rest) = false) :
    wordTag word c = .error .miss := by
  have hmiss : keyword word c₁ = .error .miss := exactly_miss (by rw [hrest]; exact hother rest)
  rw [wordTag, bind_ok_eq hopen, bind_error hmiss]

/-! ### Interpolations and directives -/

theorem encode_if : encode "if" = [0x69, 0x66] := rfl

theorem encode_for : encode "for" = [0x66, 0x6F, 0x72] := rfl

theorem encode_else : encode "else" = [0x65, 0x6C, 0x73, 0x65] := rfl

theorem encode_endif : encode "endif" = [0x65, 0x6E, 0x64, 0x69, 0x66] := rfl

theorem encode_endfor : encode "endfor" = [0x65, 0x6E, 0x64, 0x66, 0x6F, 0x72] := rfl

theorem ifWord : TagWord "if" := ⟨⟨0x69, rfl, rfl⟩, forall_mem_of_all rfl⟩

theorem forWord : TagWord "for" := ⟨⟨0x66, rfl, rfl⟩, forall_mem_of_all rfl⟩

theorem elseWord : TagWord "else" := ⟨⟨0x65, rfl, rfl⟩, forall_mem_of_all rfl⟩

theorem endifWord : TagWord "endif" := ⟨⟨0x65, rfl, rfl⟩, forall_mem_of_all rfl⟩

theorem endforWord : TagWord "endfor" := ⟨⟨0x65, rfl, rfl⟩, forall_mem_of_all rfl⟩

theorem framesBehindTag_opening {tag : Bytes}
    (h : encode "if" <+: tagWord tag ∨ encode "for" <+: tagWord tag) :
    framesBehindTag frame outer tag = .body :: frame :: outer :=
  if_pos (h.imp List.isPrefixOf_iff_prefix.mpr List.isPrefixOf_iff_prefix.mpr)

theorem framesBehindTag_of_e {tag rest : Bytes} {b : UInt8} (h : tagWord tag = 0x65 :: b :: rest)
    (frame : Frame) (outer : List Frame) :
    framesBehindTag frame outer tag =
      if frame = .body ∧ (encode "end").isPrefixOf (0x65 :: b :: rest) = true then outer
      else frame :: outer := by
  rw [framesBehindTag, h, if_neg]
  rw [encode_if, encode_for]
  simp [List.isPrefixOf]

theorem framesBehindTag_else {tag : Bytes} (h : encode "else" <+: tagWord tag) :
    framesBehindTag frame outer tag = frame :: outer := by
  obtain ⟨rest, hrest⟩ := h
  have hend : encode "end" = [0x65, 0x6E, 0x64] := rfl
  rw [encode_else] at hrest
  rw [framesBehindTag_of_e hrest.symm, if_neg]
  rw [hend]
  simp [List.isPrefixOf]

theorem framesBehindTag_end {tag : Bytes}
    (h : encode "endif" <+: tagWord tag ∨ encode "endfor" <+: tagWord tag) :
    framesBehindTag .body outer tag = outer := by
  have hend : encode "end" = [0x65, 0x6E, 0x64] := rfl
  obtain ⟨rest, hrest⟩ : ∃ rest, tagWord tag = 0x65 :: 0x6E :: 0x64 :: rest := by
    rw [encode_endif, encode_endfor] at h
    rcases h with ⟨rest, hrest⟩ | ⟨rest, hrest⟩ <;> exact ⟨_, hrest.symm⟩
  rw [framesBehindTag_of_e hrest, if_pos]
  rw [hend]
  exact ⟨rfl, by simp [List.isPrefixOf]⟩

variable {nested nested' : Nested}

theorem interpolation_eq_ok {e : Element} (h : interpolation nested c = .ok (e, d)) :
    ∃ before after c₁ c₂ c₃ v layout, exactly [Byte.dollar, Byte.openBrace] c = .ok (⟨⟩, c₁) ∧
      flag Byte.tilde c₁ = .ok (before, c₂) ∧ spaced nested c₂ = .ok (v, c₃) ∧
      closeTag c₃ = .ok (after, d) ∧ e = .interpolation layout ⟨before, after⟩ v.value := by
  obtain ⟨start, _, hstart, h⟩ := bind_eq_ok.mp h
  cases hstart
  obtain ⟨_, c₁, hopen, h⟩ := bind_eq_ok.mp h
  obtain ⟨before, c₂, hflag, h⟩ := bind_eq_ok.mp h
  obtain ⟨v, c₃, hspaced, h⟩ := bind_eq_ok.mp h
  obtain ⟨after, c₄, hclose, h⟩ := bind_eq_ok.mp h
  cases h
  exact ⟨before, after, c₁, c₂, c₃, v, _, hopen, hflag, hspaced, hclose, rfl⟩

theorem interpolation_ok {before after : Bool} {c₁ c₂ c₃ : Cursor} {v : Located Expr}
    (hopen : exactly [Byte.dollar, Byte.openBrace] c = .ok (⟨⟩, c₁))
    (hflag : flag Byte.tilde c₁ = .ok (before, c₂)) (hspaced : spaced nested c₂ = .ok (v, c₃))
    (hclose : closeTag c₃ = .ok (after, d)) : ∃ e, interpolation nested c = .ok (e, d) :=
  ⟨_, bind_ok (get_eq c) (bind_ok hopen (bind_ok hflag (bind_ok hspaced (bind_ok hclose rfl))))⟩

theorem retrace_interpolation (hn : NestedRetraces behind bound nested nested')
    (hends : Ends behind) (hframe : Textual frame) (h : TracksText behind frame outer text c c')
    (hbound : c'.rest.length ≤ bound) {e : Element} (hrun : interpolation nested c = .ok (e, d))
    (hd : d.rest = text' ++ behind) (hjoin : Expr.joinableElements [e] = true) :
    ∃ e' d', interpolation nested' c' = .ok (e', d') ∧ TracksText behind frame outer text' d d' ∧
      d'.rest.length < c'.rest.length := by
  obtain ⟨before, after, c₁, c₂, c₃, v, layout, hopen, hflag, hspaced, hclose, rfl⟩ :=
    interpolation_eq_ok hrun
  obtain ⟨text₃, hc₃⟩ := (advances_closeTag c₃ hclose).inside hd
  obtain ⟨text₂, hc₂⟩ := (advances_spaced hn.advances c₂ hspaced).inside hc₃
  obtain ⟨text₁, hc₁⟩ := (advances_flag Byte.tilde c₁ hflag).inside hc₂
  obtain rfl : text = Byte.dollar :: Byte.openBrace :: text₁ := split_exactly h.rest hopen hc₁
  have hpasses := h.fit.passes_opening hframe (Or.inl rfl)
  rw [if_neg (by decide)] at hpasses
  have hrest := h.tidy
  rw [hpasses.squeezeBehind (forall_mem_of_all rfl)] at hrest
  obtain ⟨c₁', hopen', hc₁'⟩ := exactly_ok hrest
  have h₁ : Tracks behind (.within (.code 0) (frame :: outer)) text₁ c₁ c₁' :=
    ⟨hc₁, hpasses.fit, Or.inr hc₁'⟩
  have hshorter : c₁'.rest.length < c'.rest.length := by
    rw [hrest, hc₁', List.length_append, List.length_cons]
    omega
  have hnext : before = false →
      ∃ b ∈ (squeeze (uncommented (.within (.code 0) (frame :: outer)) text₂)).head?,
        b ≠ Byte.tilde := by
    intro hmark
    subst hmark
    rcases flag_eq_ok hflag with ⟨hmark, -⟩ | ⟨-, rfl, -⟩
    · cases hmark
    · obtain rfl := List.append_cancel_right (hc₁.symm.trans hc₂)
      obtain ⟨b, hb, hoperand⟩ := hn.head? hends h₁.fit h₁.rest advances_blankLines hspaced hc₃
      exact ⟨b, hb, fun htilde => absurd hoperand (by rw [htilde]; decide)⟩
  obtain ⟨c₂', hflag', h₂, hlength₂⟩ := retrace_mark h₁ hflag hc₂ hnext
  obtain ⟨v', c₃', d', hspaced', hclose', htracks, hlength⟩ :=
    hn.hole h₂ (by omega) hspaced hclose hd (by simpa [Expr.joinableElements] using hjoin)
  obtain ⟨e', hrun'⟩ := interpolation_ok hopen' hflag' hspaced' hclose'
  exact ⟨e', d', hrun', htracks, by omega⟩

/-- Reads the part of a choice behind `else`. -/
def elsePart (nested : Nested) : Parser (Trim × List (Located Element)) := do
  let trim ← wordTag "else"
  return (trim, ← nested.body)

theorem choice_eq_ok {e : Element} (h : choice nested c = .ok (e, d)) :
    ∃ before after c₁ c₂ c₃ c₄ c₅ c₆ condition yes no trim ifTrim elseTrim layout,
      openTag c = .ok (before, c₁) ∧ keyword "if" c₁ = .ok (⟨⟩, c₂) ∧
      spaced nested c₂ = .ok (condition, c₃) ∧ closeTag c₃ = .ok (after, c₄) ∧
      nested.body c₄ = .ok (yes, c₅) ∧ Parser.optional (elsePart nested) c₅ = .ok (no, c₆) ∧
      wordTag "endif" c₆ = .ok (trim, d) ∧
      e = .choice layout ifTrim elseTrim trim condition.value (values yes)
        (no.map fun no => values no.2) := by
  obtain ⟨start, _, hstart, h⟩ := bind_eq_ok.mp h
  cases hstart
  obtain ⟨before, c₁, hopen, h⟩ := bind_eq_ok.mp h
  obtain ⟨_, c₂, hkeyword, h⟩ := bind_eq_ok.mp h
  obtain ⟨condition, c₃, hspaced, h⟩ := bind_eq_ok.mp h
  obtain ⟨after, c₄, hclose, h⟩ := bind_eq_ok.mp h
  obtain ⟨yes, c₅, hyes, h⟩ := bind_eq_ok.mp h
  obtain ⟨no, c₆, hno, h⟩ := bind_eq_ok.mp h
  obtain ⟨trim, c₇, hend, h⟩ := bind_eq_ok.mp h
  cases h
  exact ⟨before, after, c₁, c₂, c₃, c₄, c₅, c₆, condition, yes, no, trim, _, _, _, hopen, hkeyword,
    hspaced, hclose, hyes, hno, hend, rfl⟩

theorem choice_ok {before after : Bool} {c₁ c₂ c₃ c₄ c₅ c₆ : Cursor} {condition : Located Expr}
    {yes : List (Located Element)} {no : Option (Trim × List (Located Element))} {trim : Trim}
    (hopen : openTag c = .ok (before, c₁)) (hkeyword : keyword "if" c₁ = .ok (⟨⟩, c₂))
    (hspaced : spaced nested c₂ = .ok (condition, c₃)) (hclose : closeTag c₃ = .ok (after, c₄))
    (hyes : nested.body c₄ = .ok (yes, c₅))
    (hno : Parser.optional (elsePart nested) c₅ = .ok (no, c₆))
    (hend : wordTag "endif" c₆ = .ok (trim, d)) : ∃ e, choice nested c = .ok (e, d) :=
  ⟨_, bind_ok (get_eq c) (bind_ok hopen (bind_ok hkeyword (bind_ok hspaced (bind_ok hclose
    (bind_ok hyes (bind_ok hno (bind_ok hend rfl)))))))⟩

/-- The `else` part of a choice is read from both texts, or is in neither. -/
theorem retrace_elsePart (hn : NestedRetraces behind bound nested nested')
    (h : TracksText behind .body (frame :: outer) text c c') (hbound : c'.rest.length < bound)
    {no : Option (Trim × List (Located Element))} {trim : Trim} {c₁ : Cursor}
    (hno : Parser.optional (elsePart nested) c = .ok (no, c₁))
    (hend : wordTag "endif" c₁ = .ok (trim, d)) (hd : d.rest = text' ++ behind)
    (hjoin : Expr.joinableElse (no.map fun no => values no.2) = true) :
    ∃ no' c₁' d', Parser.optional (elsePart nested') c' = .ok (no', c₁') ∧
      wordTag "endif" c₁' = .ok (trim, d') ∧ TracksText behind frame outer text' d d' ∧
      d'.rest.length < c'.rest.length := by
  have hbody : Textual Frame.body := Or.inr rfl
  have hendif : ∀ tag, encode "endif" <+: tagWord tag →
      framesBehindTag .body (frame :: outer) tag = frame :: outer := fun tag htag =>
    framesBehindTag_end (Or.inl htag)
  rcases optional_eq_ok.mp hno with ⟨⟨elseTrim, parts⟩, rfl, hpart⟩ | ⟨rfl, rfl, -⟩
  · obtain ⟨_, c₂, helse, hpart⟩ := bind_eq_ok.mp hpart
    obtain ⟨_, c₃, hparts, hpart⟩ := bind_eq_ok.mp hpart
    cases hpart
    obtain ⟨text₁, hc₁⟩ := (advances_wordTag "endif" c₁ hend).inside hd
    obtain ⟨text₂, hc₂⟩ := (hn.advances.body c₂ hparts).inside hc₁
    obtain ⟨-, -, -, c₂', -, -, helse', h₂, hlength₂⟩ := retrace_wordTag elseWord hbody h helse hc₂
      fun tag htag => framesBehindTag_else htag
    obtain ⟨parts', c₁', hparts', h₁, hlength₁⟩ := hn.body h₂ (by omega) hparts hc₁ hjoin
      (bodyEnded_wordTag encode_endif hend hd)
    obtain ⟨-, -, -, d', -, -, hend', htracks, hlength⟩ :=
      retrace_wordTag endifWord hbody h₁ hend hd hendif
    exact ⟨_, c₁', d', optional_ok (bind_ok helse' (bind_ok hparts' rfl)), hend', htracks, by omega⟩
  · obtain ⟨mark, c₂', rest, d', hopen, hrest, hend', htracks, hlength⟩ :=
      retrace_wordTag endifWord hbody h hend hd hendif
    have helse : ∀ rest, (encode "else").isPrefixOf (encode "endif" ++ rest) = false := by
      intro rest
      rw [encode_else, encode_endif]
      rfl
    exact ⟨none, c', d', optional_miss (bind_error (wordTag_miss_of_open hopen hrest helse)), hend',
      htracks,
      hlength⟩

theorem retrace_choice (hn : NestedRetraces behind bound nested nested') (hframe : Textual frame)
    (h : TracksText behind frame outer text c c') (hbound : c'.rest.length ≤ bound) {e : Element}
    (hrun : choice nested c = .ok (e, d)) (hd : d.rest = text' ++ behind)
    (hjoin : Expr.joinableElements [e] = true) :
    ∃ e' d', choice nested' c' = .ok (e', d') ∧ TracksText behind frame outer text' d d' ∧
      d'.rest.length < c'.rest.length := by
  obtain ⟨before, after, c₁, c₂, c₃, c₄, c₅, c₆, condition, yes, no, trim, ifTrim, elseTrim, layout,
    hopen, hkeyword, hspaced, hclose, hyes, hno, hend, rfl⟩ := choice_eq_ok hrun
  simp only [Expr.joinableElements, Bool.and_true, Bool.and_eq_true] at hjoin
  obtain ⟨⟨hcondition, hyesJoin⟩, hnoJoin⟩ := hjoin
  have hbody : Textual Frame.body := Or.inr rfl
  obtain ⟨text₆, hc₆⟩ := (advances_wordTag "endif" c₆ hend).inside hd
  have helse : Advances (elsePart nested) := (advances_wordTag "else").bind fun _ =>
    hn.advances.body.bind fun _ => advances_pure _
  obtain ⟨text₅, hc₅⟩ := (helse.optional c₅ hno).inside hc₆
  obtain ⟨text₄, hc₄⟩ := (hn.advances.body c₄ hyes).inside hc₅
  obtain ⟨text₃, hc₃⟩ := (advances_closeTag c₃ hclose).inside hc₄
  obtain ⟨text₂, hc₂⟩ := (advances_spaced hn.advances c₂ hspaced).inside hc₃
  obtain ⟨c₁', c₂', -, hopen', -, hkeyword', h₂, hlength₂⟩ := retrace_tagWord ifWord hframe h hopen
    hkeyword hc₂ fun tag htag => framesBehindTag_opening (Or.inl htag)
  obtain ⟨condition', c₃', c₄', hspaced', hclose', h₄, hlength₄⟩ :=
    hn.hole h₂ (by omega) hspaced hclose hc₄ hcondition
  have hended : BodyEnded behind c₅ := by
    rcases optional_eq_ok.mp hno with ⟨⟨elseTrim, parts⟩, -, hpart⟩ | ⟨-, rfl, -⟩
    · obtain ⟨_, c₇, helse, hpart⟩ := bind_eq_ok.mp hpart
      obtain ⟨_, c₈, hparts, hpart⟩ := bind_eq_ok.mp hpart
      cases hpart
      obtain ⟨text₇, hc₇⟩ := (hn.advances.body c₇ hparts).inside hc₆
      exact bodyEnded_wordTag encode_else helse hc₇
    · exact bodyEnded_wordTag encode_endif hend hd
  obtain ⟨yes', c₅', hyes', h₅, hlength₅⟩ := hn.body h₄ (by omega) hyes hc₅ hyesJoin hended
  obtain ⟨no', c₆', d', hno', hend', htracks, hlength⟩ :=
    retrace_elsePart hn h₅ (by omega) hno hend hd hnoJoin
  obtain ⟨e', hrun'⟩ := choice_ok hopen' hkeyword' hspaced' hclose' hyes' hno' hend'
  exact ⟨e', d', hrun', htracks, by omega⟩

theorem repetition_eq_ok {e : Element} (h : repetition nested c = .ok (e, d)) :
    ∃ before after c₁ c₂ c₃ c₄ c₅ c₆ c₇ c₈ names collection body trim forTrim layout,
      openTag c = .ok (before, c₁) ∧ keyword "for" c₁ = .ok (⟨⟩, c₂) ∧
      blankLines c₂ = .ok (⟨⟩, c₃) ∧ loop c₃ = .ok (names, c₄) ∧
      keyword "in" c₄ = .ok (⟨⟩, c₅) ∧ spaced nested c₅ = .ok (collection, c₆) ∧
      closeTag c₆ = .ok (after, c₇) ∧ nested.body c₇ = .ok (body, c₈) ∧
      wordTag "endfor" c₈ = .ok (trim, d) ∧
      e = .repetition layout forTrim trim names collection.value (values body) := by
  obtain ⟨start, _, hstart, h⟩ := bind_eq_ok.mp h
  cases hstart
  obtain ⟨before, c₁, hopen, h⟩ := bind_eq_ok.mp h
  obtain ⟨_, c₂, hkeyword, h⟩ := bind_eq_ok.mp h
  obtain ⟨_, c₃, hblank, h⟩ := bind_eq_ok.mp h
  obtain ⟨names, c₄, hloop, h⟩ := bind_eq_ok.mp h
  obtain ⟨_, c₅, hin, h⟩ := bind_eq_ok.mp h
  obtain ⟨collection, c₆, hspaced, h⟩ := bind_eq_ok.mp h
  obtain ⟨after, c₇, hclose, h⟩ := bind_eq_ok.mp h
  obtain ⟨body, c₈, hbody, h⟩ := bind_eq_ok.mp h
  obtain ⟨trim, c₉, hend, h⟩ := bind_eq_ok.mp h
  cases h
  exact ⟨before, after, c₁, c₂, c₃, c₄, c₅, c₆, c₇, c₈, names, collection, body, trim, _, _, hopen,
    hkeyword, hblank, hloop, must_eq_ok.mp hin, hspaced, hclose, hbody, hend, rfl⟩

theorem repetition_ok {before after : Bool} {c₁ c₂ c₃ c₄ c₅ c₆ c₇ c₈ : Cursor} {names : Loop}
    {collection : Located Expr} {body : List (Located Element)} {trim : Trim}
    (hopen : openTag c = .ok (before, c₁)) (hkeyword : keyword "for" c₁ = .ok (⟨⟩, c₂))
    (hblank : blankLines c₂ = .ok (⟨⟩, c₃)) (hloop : loop c₃ = .ok (names, c₄))
    (hin : keyword "in" c₄ = .ok (⟨⟩, c₅)) (hspaced : spaced nested c₅ = .ok (collection, c₆))
    (hclose : closeTag c₆ = .ok (after, c₇)) (hbody : nested.body c₇ = .ok (body, c₈))
    (hend : wordTag "endfor" c₈ = .ok (trim, d)) : ∃ e, repetition nested c = .ok (e, d) :=
  ⟨_, bind_ok (get_eq c) (bind_ok hopen (bind_ok hkeyword (bind_ok hblank (bind_ok hloop
    (bind_ok (must_eq_ok.mpr hin) (bind_ok hspaced (bind_ok hclose (bind_ok hbody
      (bind_ok hend rfl)))))))))⟩

/-- The word between the names of a loop and the collection. -/
theorem inWord : encode "in" ≠ [] ∧ ∀ b ∈ encode "in", TokenByte b :=
  ⟨by decide, forall_mem_of_all rfl⟩

theorem retrace_repetition (hn : NestedRetraces behind bound nested nested')
    (hframe : Textual frame) (h : TracksText behind frame outer text c c')
    (hbound : c'.rest.length ≤ bound) {e : Element} (hrun : repetition nested c = .ok (e, d))
    (hd : d.rest = text' ++ behind) (hjoin : Expr.joinableElements [e] = true) :
    ∃ e' d', repetition nested' c' = .ok (e', d') ∧ choice nested' c' = .error .miss ∧
      TracksText behind frame outer text' d d' ∧ d'.rest.length < c'.rest.length := by
  obtain ⟨before, after, c₁, c₂, c₃, c₄, c₅, c₆, c₇, c₈, names, collection, body, trim, forTrim,
    layout, hopen, hkeyword, hblank, hloop, hin, hspaced, hclose, hbody, hend, rfl⟩ :=
    repetition_eq_ok hrun
  simp only [Expr.joinableElements, Bool.and_true, Bool.and_eq_true] at hjoin
  obtain ⟨hcollection, hbodyJoin⟩ := hjoin
  have htextual : Textual Frame.body := Or.inr rfl
  obtain ⟨text₈, hc₈⟩ := (advances_wordTag "endfor" c₈ hend).inside hd
  obtain ⟨text₇, hc₇⟩ := (hn.advances.body c₇ hbody).inside hc₈
  obtain ⟨text₆, hc₆⟩ := (advances_closeTag c₆ hclose).inside hc₇
  obtain ⟨text₅, hc₅⟩ := (advances_spaced hn.advances c₅ hspaced).inside hc₆
  obtain ⟨text₄, hc₄⟩ := (advances_keyword "in" c₄ hin).inside hc₅
  obtain ⟨text₃, hc₃⟩ := (advances_loop c₃ hloop).inside hc₄
  obtain ⟨text₂, hc₂⟩ := (advances_blankLines c₂ hblank).inside hc₃
  obtain ⟨c₁', c₂', rest, hopen', hrest, hkeyword', h₂, hlength₂⟩ :=
    retrace_tagWord forWord hframe h
    hopen hkeyword hc₂ fun tag htag => framesBehindTag_opening (Or.inr htag)
  obtain ⟨c₃', hblank', h₃, -, -, hlength₃, -⟩ := retrace_blank h₂ hblank hc₃ true
  obtain ⟨-, c₄', hloop', h₄, -, hlength₄⟩ := retrace_loop h₃ hloop hc₄
  obtain ⟨-, c₅', hin', h₅, hlength₅, -⟩ := retrace_exactly h₄ inWord.1 inWord.2 hin hc₅
  obtain ⟨collection', c₆', c₇', hspaced', hclose', h₇, hlength₇⟩ :=
    hn.hole h₅ (by omega) hspaced hclose hc₇ hcollection
  obtain ⟨body', c₈', hbody', h₈, hlength₈⟩ := hn.body h₇ (by omega) hbody hc₈ hbodyJoin
    (bodyEnded_wordTag encode_endfor hend hd)
  have hendfor : ∀ tag, encode "endfor" <+: tagWord tag →
      framesBehindTag .body (frame :: outer) tag = frame :: outer := fun tag htag =>
    framesBehindTag_end (Or.inr htag)
  obtain ⟨-, -, -, d', -, -, hend', htracks, hlength⟩ :=
    retrace_wordTag endforWord htextual h₈ hend hd hendfor
  obtain ⟨e', hrun'⟩ := repetition_ok hopen' hkeyword' hblank' hloop' hin' hspaced' hclose'
    hbody' hend'
  refine ⟨e', d', hrun', ?_, htracks, by omega⟩
  have hif : (encode "if").isPrefixOf (encode "for" ++ rest) = false := by
    rw [encode_if, encode_for]
    rfl
  have hmiss : keyword "if" c₁' = .error .miss := exactly_miss (by rw [hrest]; exact hif)
  rw [choice, bind_ok_eq (get_eq c'), bind_ok_eq hopen', bind_error hmiss]

end

end HclToJson.Grammar
