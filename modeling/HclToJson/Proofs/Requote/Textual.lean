import HclToJson.Proofs.Requote.Number

namespace HclToJson.Comment

open Text

/-- A frame whose bytes are text. -/
abbrev Textual (frame : Frame) : Prop := frame = .string ∨ frame = .body

/-- A byte that is text wherever it stands in a template. -/
abbrev TextByte (b : UInt8) : Prop :=
  b ≠ Byte.quote ∧ b ≠ Byte.backslash ∧ b ≠ Byte.dollar ∧ b ≠ Byte.percent

section

variable {behind text rest : Bytes} {frame : Frame} {outer : List Frame} {b : UInt8} {n : Nat}

theorem keeps_textual (hframe : Textual frame) (b : UInt8) (rest : Bytes) :
    (Spot.within frame outer).keeps b rest = true := by
  rcases hframe with rfl | rfl <;> rfl

theorem next_textual (hframe : Textual frame) (hb : frame = .string → b ≠ Byte.quote ∧
    b ≠ Byte.backslash) (rest : Bytes) :
    (Spot.within frame outer).next b rest = Spot.nextInTemplate frame outer b rest := by
  rcases hframe with rfl | rfl
  · rw [Spot.next, if_neg (hb rfl).1, if_neg (hb rfl).2]
  · rfl

theorem next_plain (hframe : Textual frame) (hb : TextByte b) (rest : Bytes) :
    (Spot.within frame outer).next b rest = .within frame outer := by
  rw [next_textual hframe (fun _ => ⟨hb.1, hb.2.1⟩), Spot.nextInTemplate,
    if_neg (not_or.mpr ⟨hb.2.2.1, hb.2.2.2⟩)]

theorem Fit.passes_plain (hframe : Textual frame) (h : Fit (.within frame outer) (b :: rest))
    (hb : TextByte b) :
    Passes (.within frame outer) (b :: rest) [b] (.within frame outer) rest := by
  have hpasses := h.passes_kept (keeps_textual hframe b rest)
  rwa [next_plain hframe hb] at hpasses

theorem Fit.textual_ne_nil (hframe : Textual frame) (h : Fit (.within frame outer) text) :
    text ≠ [] := by
  rintro rfl
  rcases hframe with rfl | rfl <;> exact h.agrees

theorem head?_uncommented {spot : Spot} (h : ∀ b rest, spot.keeps b rest = true) (text : Bytes) :
    (uncommented spot text).head? = text.head? := by
  cases text with
  | nil => simp [uncommented]
  | cons b rest => simp [uncommented, h]

theorem keeps_nextInTemplate (hframe : Textual frame) (b : UInt8) (after : Bytes)
    (hmarker : after.head? ≠ some Byte.openBrace) (d : UInt8) (rest : Bytes) :
    (Spot.nextInTemplate frame outer b after).keeps d rest = true := by
  unfold Spot.nextInTemplate
  split
  · split
    · rfl
    · exact keeps_textual hframe d rest
  · exact keeps_textual hframe d rest

/-- A text goes on with a word that its squeezed form goes on with. -/
theorem Fit.passes_word (hframe : Textual frame) {word : Bytes}
    (h : Fit (.within frame outer) text)
    (hspelled : word <+: uncommented (.within frame outer) text)
    (hword : ∀ b ∈ word, TextByte b) :
    ∃ rest, text = word ++ rest ∧
      Passes (.within frame outer) text word (.within frame outer) rest := by
  induction word generalizing text with
  | nil => exact ⟨text, rfl, .refl h⟩
  | cons b word ih =>
      obtain ⟨d, rest, rfl⟩ := List.exists_cons_of_ne_nil (h.textual_ne_nil hframe)
      have hkept : uncommented (.within frame outer) (d :: rest) =
          d :: uncommented ((Spot.within frame outer).next d rest) rest := by
        rw [uncommented, if_pos (keeps_textual hframe d rest)]
      rw [hkept, List.cons_prefix_cons] at hspelled
      obtain ⟨rfl, hothers⟩ := hspelled
      have hb := hword b List.mem_cons_self
      rw [next_plain hframe hb] at hothers
      have hpasses := h.passes_plain hframe hb
      obtain ⟨rest', rfl, hpasses'⟩ := ih hpasses.fit hothers fun c hc =>
        hword c (List.mem_cons_of_mem b hc)
      exact ⟨rest', rfl, hpasses.trans hpasses'⟩

theorem plainBytes_of_isBlank : ∀ c ∈ blankChars, ∀ b ∈ String.utf8EncodeChar c, TextByte b :=
  forall_blank (by decide +kernel)

/-- White space of a template is text. -/
theorem Fit.white (hframe : Textual frame) (h : Fit (.within frame outer) text)
    (hwhite : 0 < whiteLength (uncommented (.within frame outer) text)) :
    ∃ white rest, text = white ++ rest ∧ white ≠ [] ∧ (∀ b ∈ white, TextByte b) ∧
      Passes (.within frame outer) text white (.within frame outer) rest ∧
      squeeze (uncommented (.within frame outer) text) =
        squeeze (uncommented (.within frame outer) rest) := by
  obtain ⟨c, hc, hspelled⟩ := exists_blank_of_whiteLength hwhite
  have hplain := plainBytes_of_isBlank c hc
  obtain ⟨rest, rfl, hpasses⟩ := h.passes_word hframe hspelled hplain
  refine ⟨_, rest, rfl, ?_, hplain, hpasses, ?_⟩
  · obtain ⟨b, others, hencode, -⟩ := tail_utf8EncodeChar c
    rw [hencode]
    exact List.cons_ne_nil b others
  · rw [hpasses.uncommented, squeeze_blank (isBlank_of_mem c hc)]

theorem Fit.inked_textual (hframe : Textual frame) (h : Fit (.within frame outer) text)
    (hinked : whiteLength text = 0) : whiteLength (uncommented (.within frame outer) text) = 0 := by
  refine Nat.eq_zero_of_not_pos fun hwhite => ?_
  obtain ⟨c, hc, hspelled⟩ := exists_blank_of_whiteLength hwhite
  obtain ⟨rest, rfl, -⟩ := h.passes_word hframe hspelled (plainBytes_of_isBlank c hc)
  obtain ⟨b, others, hencode, -⟩ := tail_utf8EncodeChar c
  rw [whiteLength_char, if_pos (isBlank_of_mem c hc), hencode] at hinked
  cases hinked

theorem Fit.squeeze_ne_nil (hframe : Textual frame) (h : Fit (.within frame outer) text) :
    squeeze (uncommented (.within frame outer) text) ≠ [] := by
  induction hlength : text.length using Nat.strong_induction_on generalizing text with
  | h length ih =>
      by_cases hwhite : 0 < whiteLength (uncommented (.within frame outer) text)
      · obtain ⟨white, rest, rfl, hne, -, hpasses, hsame⟩ := h.white hframe hwhite
        rw [hsame]
        refine ih rest.length ?_ hpasses.fit rfl
        have hpos := List.length_pos_of_ne_nil hne
        rw [← hlength, List.length_append]
        omega
      · obtain ⟨b, rest, rfl⟩ := List.exists_cons_of_ne_nil (h.textual_ne_nil hframe)
        have hkept : uncommented (.within frame outer) (b :: rest) =
            b :: uncommented ((Spot.within frame outer).next b rest) rest := by
          rw [uncommented, if_pos (keeps_textual hframe b rest)]
        rw [hkept] at hwhite ⊢
        rw [squeeze_inked (Nat.eq_zero_of_not_pos hwhite)]
        exact List.cons_ne_nil _ _

/-- An ASCII byte that is no white space. -/
abbrev InkByte (b : UInt8) : Prop := b < 0x80 ∧ isBlank (Char.ofNat b.toNat) = false

theorem Passes.squeezeBehind {spot spot' : Spot} {word : Bytes}
    (h : Passes spot text word spot' rest) (hword : ∀ b ∈ word, InkByte b) :
    squeezeBehind (Comment.uncommented spot text) =
      word ++ Text.squeezeBehind (Comment.uncommented spot' rest) := by
  rw [h.uncommented]
  exact squeezeBehind_append_inked _ fun b hb => whiteLength_token (hword b hb)

/-- White space of one byte behind a backslash is a space of the squeezed text. -/
theorem Passes.squeezeBehind_white
    (h : Passes (.within .string outer) text [Byte.backslash, b] (.within .string outer) rest)
    (hb : b < 0x80) (hwhite : whiteLength (b :: rest) = 1) (hinked : whiteLength rest = 0) :
    Text.squeezeBehind (Comment.uncommented (.within .string outer) text) =
      [Byte.backslash, Byte.space] ++
        Text.squeezeBehind (Comment.uncommented (.within .string outer) rest) := by
  have hinked' := h.fit.inked_textual (Or.inl rfl) hinked
  have hne := h.fit.squeeze_ne_nil (Or.inl rfl)
  rw [h.uncommented]
  generalize Comment.uncommented (.within .string outer) rest = left at hinked' hne
  have hone : whiteLength (b :: left) = 1 := by
    rw [whiteLength_ascii hb] at hwhite ⊢
    exact hwhite
  have hspace : squeeze (b :: left) = squeeze left := by
    rw [squeeze_white (by omega), hone, Nat.sub_self, List.drop_zero]
  calc
    Text.squeezeBehind (Byte.backslash :: b :: left) =
        Byte.backslash :: Text.squeezeBehind (b :: left) :=
      squeezeBehind_inked (whiteLength_token (by decide) _)
    _ = Byte.backslash :: Byte.space :: squeeze left := by
      rw [Text.squeezeBehind, hspace, if_neg (not_or.mpr ⟨by omega, hne⟩)]
    _ = [Byte.backslash, Byte.space] ++ Text.squeezeBehind left := by
      rw [Text.squeezeBehind, if_pos (Or.inl hinked')]
      rfl

theorem head?_of_squeezeBehind (h : (squeezeBehind text).head? = some b) (hb : b ≠ Byte.space) :
    text.head? = some b := by
  rcases head?_squeezeBehind text with hhead | hhead | hhead
  · rw [hhead] at h
    cases h
  · rw [hhead] at h
    exact absurd (Option.some.inj h).symm hb
  · rw [← hhead, h]

/-- A byte that the squeezed text goes on with is one of the text. -/
theorem head?_of_textual (hframe : Textual frame)
    (h : (squeezeBehind (uncommented (.within frame outer) text)).head? = some b)
    (hb : b ≠ Byte.space) : text.head? = some b := by
  rw [← head?_uncommented (keeps_textual hframe)]
  exact head?_of_squeezeBehind h hb

theorem inkByte_marker (hb : b = Byte.dollar ∨ b = Byte.percent) : InkByte b := by
  rcases hb with rfl | rfl <;> decide

/-- What a marker may start with closes no string and starts no escape. -/
theorem next_marker (hframe : Textual frame) (hb : b = Byte.dollar ∨ b = Byte.percent)
    (rest : Bytes) :
    (Spot.within frame outer).next b rest = Spot.nextInTemplate frame outer b rest :=
  next_textual hframe (fun _ => by rcases hb with rfl | rfl <;> decide) rest

theorem Fit.passes_doubled (hframe : Textual frame) (hb : b = Byte.dollar ∨ b = Byte.percent)
    (h : Fit (.within frame outer) (b :: b :: Byte.openBrace :: rest)) :
    Passes (.within frame outer) (b :: b :: Byte.openBrace :: rest) [b, b, Byte.openBrace]
      (.within frame outer) rest := by
  have hfirst := h.passes_kept (keeps_textual hframe b _)
  have hspelled : [b, Byte.openBrace].isPrefixOf (b :: Byte.openBrace :: rest) = true := by simp
  rw [next_marker hframe hb, Spot.nextInTemplate, if_pos hb, if_pos hspelled] at hfirst
  have hsecond := hfirst.trans (hfirst.fit.passes_kept rfl)
  exact hsecond.trans (hsecond.fit.passes_plain hframe (by decide))

theorem Fit.passes_run (hframe : Textual frame) {word : Bytes}
    (h : Fit (.within frame outer) (word ++ rest)) (hword : ∀ b ∈ word, TextByte b) :
    Passes (.within frame outer) (word ++ rest) word (.within frame outer) rest := by
  induction word with
  | nil => exact .refl h
  | cons b word ih =>
      have hcons : Fit (.within frame outer) (b :: (word ++ rest)) := h
      have hbyte := hcons.passes_plain hframe (hword b List.mem_cons_self)
      exact hbyte.trans (ih hbyte.fit fun c hc => hword c (List.mem_cons_of_mem b hc))

/-- A backslash in a string goes together with the byte behind it. -/
theorem Fit.passes_escape (h : Fit (.within .string outer) (Byte.backslash :: b :: rest)) :
    Passes (.within .string outer) (Byte.backslash :: b :: rest) [Byte.backslash, b]
      (.within .string outer) rest := by
  have hfirst := h.passes_kept rfl
  have hnext : (Spot.within .string outer).next Byte.backslash (b :: rest) = .escaped outer := rfl
  rw [hnext] at hfirst
  exact hfirst.trans (hfirst.fit.passes_kept rfl)

/-- What the squeezed text starts with, the text starts with, if white space is no part of it. -/
theorem prefix_of_squeezeBehind (hframe : Textual frame) {word : Bytes}
    (h : Fit (.within frame outer) text)
    (hspelled : word <+: squeezeBehind (uncommented (.within frame outer) text))
    (hword : ∀ b ∈ word, TextByte b ∧ InkByte b) : word <+: text := by
  induction word generalizing text with
  | nil => exact List.nil_prefix
  | cons b word ih =>
      obtain ⟨htext, hink⟩ := hword b List.mem_cons_self
      have hspace : b ≠ Byte.space := by
        rintro rfl
        exact absurd hink (by decide)
      have hhead : text.head? = some b := by
        obtain ⟨others, hothers⟩ := hspelled
        have hsqueezed :
            (squeezeBehind (uncommented (.within frame outer) text)).head? = some b := by
          rw [← hothers]
          rfl
        exact head?_of_textual hframe hsqueezed hspace
      obtain ⟨rest, rfl⟩ := List.head?_eq_some_iff.mp hhead
      have hpasses := h.passes_plain hframe htext
      rw [hpasses.squeezeBehind (List.forall_mem_singleton.mpr hink), List.singleton_append,
        List.cons_prefix_cons] at hspelled
      exact List.cons_prefix_cons.mpr ⟨rfl, ih hpasses.fit hspelled.2 fun c hc =>
        hword c (List.mem_cons_of_mem b hc)⟩

/-- Behind the opening of a marker stands code. -/
theorem Fit.passes_opening (hframe : Textual frame) (hb : b = Byte.dollar ∨ b = Byte.percent)
    (h : Fit (.within frame outer) (b :: Byte.openBrace :: rest)) :
    Passes (.within frame outer) (b :: Byte.openBrace :: rest) [b, Byte.openBrace]
      (.within (.code 0)
        (if b = Byte.percent then framesBehindTag frame outer rest else frame :: outer)) rest := by
  have hfirst := h.passes_kept (keeps_textual hframe b _)
  have hne : b ≠ Byte.openBrace := by rcases hb with rfl | rfl <;> decide
  have hspelled : ¬ [b, Byte.openBrace].isPrefixOf (Byte.openBrace :: rest) = true := by
    simp [List.isPrefixOf, hne]
  rw [next_marker hframe hb, Spot.nextInTemplate, if_pos hb, if_neg hspelled,
    if_pos List.head?_cons, List.tail_cons] at hfirst
  exact hfirst.trans (hfirst.fit.passes_kept rfl)

end

end HclToJson.Comment
