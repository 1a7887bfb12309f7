import HclToJson.Proofs.Grammar.Lexeme
import HclToJson.Proofs.Requote.Blank

namespace HclToJson.Grammar

open Comment Text HclToJson.Parser

/-- An ASCII byte of a token that neither opens nor closes anything. -/
abbrev TokenByte (b : UInt8) : Prop :=
  b < 0x80 ∧ isBlank (Char.ofNat b.toNat) = false ∧ b ≠ Byte.quote ∧ b ≠ Byte.openBrace ∧
    b ≠ Byte.closeBrace ∧ b ≠ Byte.hash ∧ b ≠ Byte.slash

section

variable {behind text text' rest : Bytes} {spot spot' : Spot} {braces : Nat} {outer : List Frame}
  {b : UInt8} {c c' d : Cursor}

/-- A byte of the text that is kept is the next one of the squeezed text too. -/
theorem Tracks.cons (h : Tracks behind spot (b :: text) c c')
    (hpasses : Passes spot (b :: text) [b] spot' text)
    (hinked : whiteLength (b :: uncommented spot' text) = 0) :
    c'.rest = b :: squeezeBehind (uncommented spot' text) := by
  have htidy := h.tidy
  rw [hpasses.uncommented, List.singleton_append, squeeze_inked hinked,
    squeezeBehind_inked hinked] at htidy
  exact htidy.elim id id

/-- Behind a token of code the squeezed text goes on as the text does, unless the text has white
space or a comment there that kept apart what joins. -/
theorem joins_of_head? (h : Fit (.within (.code braces) outer) (b :: text))
    (hnext : (Spot.within (.code braces) outer).next b text = .within (.code braces) outer)
    {e : UInt8}
    (he : (squeezeBehind (uncommented (.within (.code braces) outer) text)).head? = some e)
    (hjoins : Joins b e) : text.head? = some e := by
  have hspace : ¬ Joins b Byte.space := by
    have hcontinue : isIdentContinue Byte.space = false := by decide
    have hdigit : Byte.isDigit Byte.space = false := by decide
    rintro (⟨-, h⟩ | ⟨-, h⟩ | ⟨-, h⟩)
    · simp [hcontinue] at h
    · exact absurd h (by decide)
    · simp [hdigit] at h
  have hparts := h.parts.1.2.1
  rw [hnext] at hparts
  rcases head?_squeezeBehind (uncommented (.within (.code braces) outer) text) with
    hhead | hhead | hhead
  · rw [hhead] at he
    cases he
  · rw [hhead] at he
    cases he
    exact absurd hjoins hspace
  · rw [hhead] at he
    rcases hparts with hparts | hparts
    · rw [← hparts, he]
    · exact absurd hjoins (hparts e he)

theorem Fit.run {word : Bytes} (h : Fit (.within (.code braces) outer) (word ++ text))
    (hword : ∀ b ∈ word, Flat b ∧ Byte.isBlank b = false) :
    Passes (.within (.code braces) outer) (word ++ text) word (.within (.code braces) outer) text ∧
      squeezeBehind (uncommented (.within (.code braces) outer) (word ++ text)) =
        word ++ squeezeBehind (uncommented (.within (.code braces) outer) text) := by
  induction word with
  | nil => exact ⟨.refl h, rfl⟩
  | cons b word ih =>
      obtain ⟨hflat, hblank⟩ := hword b List.mem_cons_self
      have hfit : Fit (.within (.code braces) outer) (b :: (word ++ text)) := h
      have hbyte := hfit.passes_flat hflat
      have hinked := hfit.inked hblank
      rw [next_flat ⟨hflat.1, hflat.2.1, hflat.2.2.1⟩ hflat.not_opens] at hinked
      obtain ⟨hpasses, hsqueeze⟩ := ih hbyte.fit fun c hc => hword c (List.mem_cons_of_mem b hc)
      refine ⟨hbyte.trans hpasses, ?_⟩
      rw [List.cons_append, hbyte.uncommented, List.singleton_append]
      exact (squeezeBehind_inked hinked).trans (congrArg (b :: ·) hsqueeze)

theorem Tracks.run {word : Bytes} (h : Tracks behind (.within (.code braces) outer)
    (word ++ text) c c')
    (hne : word ≠ []) (hword : ∀ b ∈ word, Flat b ∧ Byte.isBlank b = false) :
    Passes (.within (.code braces) outer) (word ++ text) word (.within (.code braces) outer) text ∧
      c'.rest = word ++ squeezeBehind (uncommented (.within (.code braces) outer) text) := by
  obtain ⟨b, word, rfl⟩ := List.exists_cons_of_ne_nil hne
  obtain ⟨hflat, hblank⟩ := hword b List.mem_cons_self
  have hfit : Fit (.within (.code braces) outer) (b :: (word ++ text)) := h.fit
  have hbyte := hfit.passes_flat hflat
  have hinked := hfit.inked hblank
  rw [next_flat ⟨hflat.1, hflat.2.1, hflat.2.2.1⟩ hflat.not_opens] at hinked
  have hrest : c'.rest = b :: squeezeBehind (uncommented (.within (.code braces) outer)
      (word ++ text)) := Tracks.cons h hbyte hinked
  obtain ⟨hpasses, hsqueeze⟩ := Fit.run hbyte.fit fun c hc => hword c (List.mem_cons_of_mem b hc)
  rw [hsqueeze] at hrest
  exact ⟨hbyte.trans hpasses, hrest⟩

theorem Tracks.byte (h : Tracks behind (.within (.code braces) outer) (b :: text) c c')
    (hb : Flat b ∧ Byte.isBlank b = false) :
    Passes (.within (.code braces) outer) (b :: text) [b] (.within (.code braces) outer) text ∧
      c'.rest = b :: squeezeBehind (uncommented (.within (.code braces) outer) text) := by
  have hword : Tracks behind (.within (.code braces) outer) ([b] ++ text) c c' := h
  exact hword.run (List.cons_ne_nil b []) (List.forall_mem_singleton.mpr hb)

theorem TokenByte.flat (hb : TokenByte b) : Flat b ∧ Byte.isBlank b = false := by
  have hall : ∀ b : UInt8, TokenByte b → Byte.isBlank b = false :=
    Byte.forall_of_lt (by decide +kernel)
  exact ⟨hb.2.2, hall b hb⟩

/-- Behind a word of code the squeezed text goes on with what joins its last byte only where the
text does. -/
theorem Fit.run_joins {word : Bytes} (h : Fit (.within (.code braces) outer) (word ++ text))
    (hword : ∀ b ∈ word, Flat b ∧ Byte.isBlank b = false) {last e : UInt8}
    (hlast : word.getLast? = some last)
    (he : (squeezeBehind (uncommented (.within (.code braces) outer) text)).head? = some e)
    (hjoins : Joins last e) : text.head? = some e := by
  obtain ⟨front, rfl⟩ := List.getLast?_eq_some_iff.mp hlast
  rw [List.append_assoc, List.singleton_append] at h
  have hfit := (Fit.run h fun b hb => hword b (List.mem_append_left _ hb)).1.fit
  have hflat := (hword last (by simp)).1
  exact joins_of_head? hfit (next_flat ⟨hflat.1, hflat.2.1, hflat.2.2.1⟩ hflat.not_opens) he hjoins

/-- Behind a token the squeezed text goes on with what joins it only where the text does. -/
def Beside (text : Bytes) (joins : UInt8 → Prop) (d' : Cursor) : Prop :=
  ∀ e ∈ d'.rest.head?, joins e → text.head? = some e

/-- What does not go on with a token in the text does not in the squeezed text. -/
theorem Beside.head?_eq_false {joins : UInt8 → Prop} {p : UInt8 → Bool}
    (hbeside : Beside text joins d) (hjoins : ∀ e, p e = true → joins e)
    (hend : ∀ e ∈ (text ++ behind).head?, p e = false) : ∀ e ∈ d.rest.head?, p e = false := by
  intro e he
  refine (Bool.not_eq_true _).mp fun hp => ?_
  obtain ⟨rest, rfl⟩ := List.head?_eq_some_iff.mp (hbeside e he (hjoins e hp))
  rw [hend e rfl] at hp
  cases hp

/-- A token is read from both texts. -/
theorem retrace_exactly {expected : Bytes} {value : Unit}
    (h : Tracks behind (.within (.code braces) outer) text c c') (hne : expected ≠ [])
    (hexpected : ∀ b ∈ expected, TokenByte b) (hrun : exactly expected c = .ok (value, d))
    (hd : d.rest = text' ++ behind) :
    text = expected ++ text' ∧ ∃ d', exactly expected c' = .ok (⟨⟩, d') ∧
      Tracks behind (.within (.code braces) outer) text' d d' ∧
      d'.rest.length < c'.rest.length ∧
      ∀ last, expected.getLast? = some last → Beside text' (Joins last) d' := by
  have hsplit : text ++ behind = expected ++ text' ++ behind := by
    rw [← h.rest, exactly_eq_ok hrun, hd, List.append_assoc]
  obtain rfl := List.append_cancel_right hsplit
  obtain ⟨hpasses, hrest⟩ := Tracks.run h hne fun b hb => TokenByte.flat (hexpected b hb)
  obtain ⟨d', hd', hrest'⟩ := exactly_ok hrest
  refine ⟨rfl, d', hd', ⟨hd, hpasses.fit, Or.inr hrest'⟩, ?_, ?_⟩
  · have hpos := List.length_pos_of_ne_nil hne
    rw [hrest, hrest', List.length_append]
    omega
  · intro last hlast e he hjoins
    rw [hrest'] at he
    exact Fit.run_joins h.fit (fun b hb => TokenByte.flat (hexpected b hb)) hlast he hjoins

theorem retrace_byte {value : Unit} (h : Tracks behind (.within (.code braces) outer) text c c')
    (hb : TokenByte b) (hrun : byte b c = .ok (value, d)) (hd : d.rest = text' ++ behind) :
    text = b :: text' ∧ ∃ d', byte b c' = .ok (⟨⟩, d') ∧
      Tracks behind (.within (.code braces) outer) text' d d' ∧
      d'.rest.length < c'.rest.length ∧ Beside text' (Joins b) d' := by
  obtain ⟨htext, d', hd', htracks, hlength, hbeside⟩ :=
    retrace_exactly h (List.cons_ne_nil b []) (List.forall_mem_singleton.mpr hb) hrun hd
  exact ⟨htext, d', hd', htracks, hlength, hbeside b rfl⟩

/-! ### Words -/

theorem flat_of_isIdentContinue (hb : isIdentContinue b = true) :
    Flat b ∧ Byte.isBlank b = false := by
  have hall : ∀ b : UInt8, isIdentContinue b = true → (b ≠ Byte.quote ∧ b ≠ Byte.openBrace ∧
      b ≠ Byte.closeBrace ∧ b ≠ Byte.hash ∧ b ≠ Byte.slash) ∧ Byte.isBlank b = false :=
    Byte.forall_of_lt (by decide +kernel)
  exact hall b hb

theorem drop_length_takeWhile (p : UInt8 → Bool) (text : Bytes) :
    text.drop (text.takeWhile p).length = text.dropWhile p := by
  induction text with
  | nil => rfl
  | cons b rest ih =>
      rw [List.takeWhile_cons, List.dropWhile_cons]
      split
      · exact ih
      · rfl

theorem take_length_takeWhile (p : UInt8 → Bool) (text : Bytes) :
    text.take (text.takeWhile p).length = text.takeWhile p :=
  (List.prefix_iff_eq_take.mp (List.takeWhile_prefix p)).symm

theorem isIdentContinue_of_isIdentStart (hb : isIdentStart b = true) :
    isIdentContinue b = true := by
  simp [isIdentContinue, hb]

theorem ident_eq_ok {name : String} (h : ident c = .ok (name, d)) :
    ∃ b others, c.rest = b :: others ++ d.rest ∧ isIdentStart b = true ∧
      (∀ e ∈ others, isIdentContinue e = true) ∧
      (∀ e ∈ d.rest.head?, isIdentContinue e = false) ∧ name = ofBytes (b :: others) := by
  obtain ⟨text, c₁, hahead, h⟩ := bind_eq_ok.mp h
  cases hahead
  obtain ⟨_, c₂, hrequire, h⟩ := bind_eq_ok.mp h
  rw [require_eq] at hrequire
  split at hrequire
  · rename_i hpos
    cases hrequire
    obtain ⟨word, c₃, htake, h⟩ := bind_eq_ok.mp h
    rw [take_eq] at htake
    cases htake
    cases h
    cases hrest : c.rest with
    | nil => simp [hrest, identLength] at hpos
    | cons b rest =>
        by_cases hb : isIdentStart b = true
        · have hlength : identLength (b :: rest) = (rest.takeWhile isIdentContinue).length + 1 := by
            rw [identLength, if_pos hb, Nat.add_comm]
          refine ⟨b, rest.takeWhile isIdentContinue, ?_, hb, ?_, ?_, ?_⟩
          · rw [hlength, List.drop_succ_cons, drop_length_takeWhile, List.cons_append,
              List.takeWhile_append_dropWhile]
          · exact fun e he => List.all_eq_true.mp List.all_takeWhile e he
          · intro e he
            rw [hlength, List.drop_succ_cons, drop_length_takeWhile] at he
            have hhead := List.head?_dropWhile_not isIdentContinue rest
            rw [Option.mem_def.mp he] at hhead
            exact hhead
          · rw [hlength, List.take_succ_cons, take_length_takeWhile]
        · simp [hrest, identLength, hb] at hpos
  · cases hrequire

/-- A word is read from both texts, and ends at the same place. -/
theorem retrace_ident {name : String} (h : Tracks behind (.within (.code braces) outer) text c c')
    (hrun : ident c = .ok (name, d)) (hd : d.rest = text' ++ behind) :
    ∃ d', ident c' = .ok (name, d') ∧
      Tracks behind (.within (.code braces) outer) text' d d' ∧
      d'.rest.length < c'.rest.length := by
  obtain ⟨b, others, hrest, hb, hothers, hend, rfl⟩ := ident_eq_ok hrun
  have hsplit : text ++ behind = b :: others ++ text' ++ behind := by
    rw [← h.rest, hrest, hd, List.append_assoc]
  obtain rfl := List.append_cancel_right hsplit
  have hword : ∀ e ∈ b :: others, isIdentContinue e = true :=
    List.forall_mem_cons.mpr ⟨isIdentContinue_of_isIdentStart hb, hothers⟩
  obtain ⟨hpasses, hrest'⟩ := Tracks.run h (List.cons_ne_nil b others) fun e he =>
    flat_of_isIdentContinue (hword e he)
  have hbeside : ∀ pos, Beside text' (fun e => isIdentContinue e = true)
      ⟨pos, squeezeBehind (uncommented (.within (.code braces) outer) text')⟩ := by
    intro pos e he hcontinue
    have hlast := List.getLast?_eq_some_getLast (List.cons_ne_nil b others)
    exact Fit.run_joins h.fit (fun e he => flat_of_isIdentContinue (hword e he)) hlast he
      (Or.inl ⟨hword _ (List.getLast_mem _), hcontinue⟩)
  have hend' := (hbeside 0).head?_eq_false (fun _ => id) (hd ▸ hend)
  obtain ⟨pos, tidy⟩ := c'
  obtain rfl : tidy = _ := hrest'
  have heq := ident_eq hb hothers hend' pos
  refine ⟨_, heq, ⟨hd, hpasses.fit, Or.inr rfl⟩, ?_⟩
  simp only [List.cons_append, List.length_cons, List.length_append]
  omega

/-! ### Behind the value of an attribute -/

/-- What may stand behind the value of an attribute: white space, a comment or a closing brace. -/
def valueEnds : List UInt8 :=
  [Byte.space, Byte.tab, Byte.newline, Byte.carriageReturn, Byte.hash, Byte.slash, Byte.closeBrace]

/-- A text that may stand behind a value. -/
def Ends (behind : Bytes) : Prop := ∀ b ∈ behind.head?, b ∈ valueEnds

theorem Ends.head_mem {p : UInt8 → Prop} (hends : Ends behind) (hp : ∀ b ∈ valueEnds, ¬ p b)
    (hhead : ∃ b ∈ (text ++ behind).head?, p b) : ∃ b rest, text = b :: rest ∧ p b := by
  obtain ⟨b, hb, hpb⟩ := hhead
  cases text with
  | nil => exact absurd hpb (hp b (hends b hb))
  | cons e rest =>
      obtain rfl : e = b := by simpa using hb
      exact ⟨e, rest, rfl, hpb⟩

theorem Ends.inside {rest : Bytes} (hends : Ends behind) (hb : b ∉ valueEnds)
    (hrest : text ++ behind = b :: rest) : ∃ text', text = b :: text' ∧ rest = text' ++ behind := by
  have hnot : ∀ e ∈ valueEnds, ¬ e = b := fun e he heq => hb (heq ▸ he)
  obtain ⟨e, text', rfl, rfl⟩ := hends.head_mem hnot ⟨b, by rw [hrest]; rfl, rfl⟩
  exact ⟨text', rfl, (List.cons.inj hrest).2.symm⟩

/-! ### Separators and signs -/

/-- At a token both readers see the same byte. -/
theorem Tracks.head?_settled (h : Tracks behind (.within (.code braces) outer) text c c')
    (hsettled : Settled text) : c'.rest.head? = text.head? := by
  cases text with
  | nil => rcases h.tidy with htidy | htidy <;> simp [htidy, uncommented]
  | cons b rest =>
      obtain ⟨hblank, hopens⟩ := hsettled b rfl
      rw [h.cons (h.fit.passes_code hopens) (h.fit.inked hblank)]
      rfl

theorem retrace_blank (h : Tracks behind (.within (.code braces) outer) text c c')
    {newlines : Bool} {value : Unit} (hrun : separator newlines c = .ok (value, d))
    (hd : d.rest = text' ++ behind) (newlines' : Bool) :
    ∃ d', separator newlines' c' = .ok (⟨⟩, d') ∧
      Tracks behind (.within (.code braces) outer) text' d d' ∧
      d'.rest = squeeze (uncommented (.within (.code braces) outer) text') ∧
      squeeze (uncommented (.within (.code braces) outer) text) =
        squeeze (uncommented (.within (.code braces) outer) text') ∧
      d'.rest.length ≤ c'.rest.length ∧ (newlines = true → Settled text') := by
  obtain ⟨hfit, hsame, hsettled⟩ := retrace_separator h.fit h.rest hrun hd
  obtain ⟨d', hrun', hd', hlength⟩ := separator_tidy h newlines'
  rw [hsame] at hd'
  exact ⟨d', hrun', ⟨hd, hfit, Or.inl hd'⟩, hd', hsame, hlength, hsettled⟩

theorem retrace_flag (h : Tracks behind (.within (.code braces) outer) (b :: text') c c')
    (hb : TokenByte b) (hd : d.rest = text' ++ behind) :
    ∃ d', flag b c' = .ok (true, d') ∧
      Tracks behind (.within (.code braces) outer) text' d d' ∧
      d'.rest.length < c'.rest.length := by
  obtain ⟨hpasses, hrest⟩ := h.byte hb.flat
  obtain ⟨d', hflag, hd'⟩ := flag_ok hrest
  refine ⟨d', hflag, ⟨hd, hpasses.fit, Or.inr hd'⟩, ?_⟩
  rw [hrest, hd', List.length_cons]
  exact Nat.lt_succ_self _

theorem Ends.minus_inside (hends : Ends behind)
    (h : Tracks behind (.within (.code braces) outer) text c c')
    (hrest : c.rest = Byte.minus :: d.rest) :
    ∃ text', text = Byte.minus :: text' ∧ d.rest = text' ++ behind :=
  hends.inside (by decide) (h.rest.symm.trans hrest)

end

end HclToJson.Grammar
