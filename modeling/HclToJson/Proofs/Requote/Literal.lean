import HclToJson.Proofs.Requote.Textual

namespace HclToJson.Grammar

open Comment Text HclToJson.Parser

/-- A run of text goes on with parts of some kind, and ends with one of another. -/
inductive LiteralRun (part final : Bytes → Nat → Prop) : Bytes → Nat → Prop
  | final {text : Bytes} {n : Nat} (h : final text n) : LiteralRun part final text n
  | part {text : Bytes} {m n : Nat} (h : part text m)
      (hrest : LiteralRun part final (text.drop m) n) : LiteralRun part final text (m + n)

/-- A part of a run is one of the same length when comments are removed, and white space squeezed. -/
def Carries (frame : Frame) (part : Bytes → Nat → Prop) : Prop :=
  ∀ ⦃outer : List Frame⦄ ⦃behind text : Bytes⦄ ⦃n : Nat⦄, Fit (.within frame outer) text →
    whiteLength (uncommented (.within frame outer) text) = 0 → part (text ++ behind) n →
    n ≤ text.length → ∃ word word' rest, text = word ++ rest ∧ word.length = n ∧
      word'.length = n ∧ Passes (.within frame outer) text word (.within frame outer) rest ∧
      squeezeBehind (uncommented (.within frame outer) text) =
        word' ++ squeezeBehind (uncommented (.within frame outer) rest) ∧
      part (squeezeBehind (uncommented (.within frame outer) text)) n

/-- The parts and ends of the runs of a frame. -/
structure LiteralLaws (frame : Frame) (part final : Bytes → Nat → Prop) : Prop where
  textual : Textual frame
  plain : ∀ b rest, TextByte b → part (b :: rest) 1
  one : ∀ b rest n, TextByte b → part (b :: rest) n → n = 1
  pos : ∀ text n, part text n → 0 < n
  exclusive : ∀ text m n, part text m → ¬ final text n
  carries : Carries frame part
  carries_final : Carries frame final

section

variable {part final : Bytes → Nat → Prop} {frame : Frame} {behind text : Bytes}
  {outer : List Frame} {n : Nat}

theorem LiteralLaws.run_append (laws : LiteralLaws frame part final) {white : Bytes}
    (hwhite : ∀ b ∈ white, TextByte b) (h : LiteralRun part final (white ++ text) n) :
    ∃ m, n = white.length + m ∧ LiteralRun part final text m := by
  induction white generalizing n with
  | nil => exact ⟨n, (Nat.zero_add n).symm, h⟩
  | cons b white ih =>
      have hb := hwhite b List.mem_cons_self
      cases h with
      | final hfinal =>
          exact absurd hfinal (laws.exclusive _ 1 n (laws.plain b (white ++ text) hb))
      | @part _ m n hpart hrest =>
          obtain rfl := laws.one b (white ++ text) m hb hpart
          obtain ⟨m, rfl, hrun⟩ := ih (fun c hc => hwhite c (List.mem_cons_of_mem b hc)) hrest
          exact ⟨m, by rw [List.length_cons]; omega, hrun⟩

theorem squeezeBehind_eq_squeeze (h : whiteLength text = 0) :
    squeezeBehind text = squeeze text := by
  rw [squeezeBehind, if_pos (Or.inl h)]

/-- A run of text is a run of the squeezed text, wherever it starts in white space. -/
theorem LiteralLaws.retrace (laws : LiteralLaws frame part final)
    (h : Fit (.within frame outer) text) (hrun : LiteralRun part final (text ++ behind) n)
    (hinside : n ≤ text.length) {tidy : Bytes}
    (htidy : tidy = squeezeBehind (uncommented (.within frame outer) text) ∨
      tidy = squeeze (uncommented (.within frame outer) text)) :
    ∃ m, Fit (.within frame outer) (text.drop n) ∧ LiteralRun part final tidy m ∧
      tidy.drop m = squeezeBehind (uncommented (.within frame outer) (text.drop n)) := by
  induction hlength : text.length using Nat.strong_induction_on generalizing text n tidy with
  | h length ih =>
      by_cases hwhite : 0 < whiteLength (uncommented (.within frame outer) text)
      · obtain ⟨white, rest, rfl, hne, hplain, hpasses, hsame⟩ := h.white laws.textual hwhite
        have hpos := List.length_pos_of_ne_nil hne
        rw [List.append_assoc] at hrun
        obtain ⟨k, rfl, hrun'⟩ := laws.run_append hplain hrun
        rw [List.length_append] at hinside hlength
        obtain ⟨m, hfit, hrun'', hdrop⟩ := ih rest.length (by omega) hpasses.fit hrun' (by omega)
          (Or.inr rfl) rfl
        have hleft : (white ++ rest).drop (white.length + k) = rest.drop k := by
          rw [← List.drop_drop, List.drop_left]
        rw [hleft]
        rcases htidy with rfl | rfl
        · have hspace : squeezeBehind (uncommented (.within frame outer) (white ++ rest)) =
              Byte.space :: squeeze (uncommented (.within frame outer) rest) := by
            rw [squeezeBehind, if_neg (not_or.mpr ⟨by omega, h.squeeze_ne_nil laws.textual⟩), hsame]
          rw [hspace]
          refine ⟨1 + m, hfit, .part (laws.plain _ _ (by decide)) hrun'', ?_⟩
          rw [← List.drop_drop]
          exact hdrop
        · rw [hsame]
          exact ⟨m, hfit, hrun'', hdrop⟩
      · have hinked : whiteLength (uncommented (.within frame outer) text) = 0 :=
          Nat.eq_zero_of_not_pos hwhite
        obtain rfl : tidy = squeezeBehind (uncommented (.within frame outer) text) :=
          htidy.elim id fun heq => heq.trans (squeezeBehind_eq_squeeze hinked).symm
        cases hrun with
        | final hfinal =>
            obtain ⟨word, word', rest, rfl, rfl, hlength', hpasses, hsame, hfinal'⟩ :=
              laws.carries_final h hinked hfinal hinside
            refine ⟨word.length, ?_, .final hfinal', ?_⟩
            · rw [List.drop_left]
              exact hpasses.fit
            · rw [hsame, List.drop_left, List.drop_left' hlength']
        | @part _ m n hpart hrest =>
            obtain ⟨word, word', rest, rfl, rfl, hlength', hpasses, hsame, hpart'⟩ :=
              laws.carries h hinked hpart (by omega)
            have hpos := laws.pos _ _ hpart
            rw [List.append_assoc, List.drop_left] at hrest
            rw [List.length_append] at hinside hlength
            obtain ⟨k, hfit, hrun', hdrop⟩ := ih rest.length (by omega) hpasses.fit hrest (by omega)
              (Or.inl rfl) rfl
            have hleft : (word ++ rest).drop (word.length + n) = rest.drop n := by
              rw [← List.drop_drop, List.drop_left]
            rw [hleft]
            refine ⟨word.length + k, hfit, .part hpart' ?_, ?_⟩
            · rw [hsame, List.drop_left' hlength']
              exact hrun'
            · rw [hsame, ← List.drop_drop, List.drop_left' hlength']
              exact hdrop

/-- Where a run of text starts with a part, so does the squeezed text. -/
theorem LiteralLaws.exists_part (laws : LiteralLaws frame part final)
    (h : Fit (.within frame outer) text) {m : Nat} (hpart : part (text ++ behind) m)
    (hinside : m ≤ text.length) :
    ∃ k, part (squeezeBehind (uncommented (.within frame outer) text)) k := by
  by_cases hwhite : 0 < whiteLength (uncommented (.within frame outer) text)
  · have hspace : squeezeBehind (uncommented (.within frame outer) text) =
        Byte.space :: squeeze (uncommented (.within frame outer) text) := by
      rw [squeezeBehind, if_neg (not_or.mpr ⟨by omega, h.squeeze_ne_nil laws.textual⟩)]
    rw [hspace]
    exact ⟨1, laws.plain _ _ (by decide)⟩
  · obtain ⟨word, word', rest, -, -, -, -, -, hpart'⟩ :=
      laws.carries h (Nat.eq_zero_of_not_pos hwhite) hpart hinside
    exact ⟨m, hpart'⟩

end

/-! ### Text of quoted strings and of directives -/

section

variable {behind text rest marker : Bytes} {frame : Frame} {outer : List Frame} {b : UInt8}
  {n : Nat}

theorem carries_doubled (hframe : Textual frame) (h : Fit (.within frame outer) text)
    (hdoubled : doubledMarker? (text ++ behind) = some marker) (hinside : 3 ≤ text.length) :
    ∃ word rest, text = word ++ rest ∧ word.length = 3 ∧
      Passes (.within frame outer) text word (.within frame outer) rest ∧
      squeezeBehind (uncommented (.within frame outer) text) =
        word ++ squeezeBehind (uncommented (.within frame outer) rest) ∧
      doubledMarker? (squeezeBehind (uncommented (.within frame outer) text)) = some marker := by
  obtain ⟨b, others, htext, hb, rfl⟩ := doubledMarker?_eq_some hdoubled
  obtain ⟨rest, rfl⟩ : ∃ rest, text = b :: b :: Byte.openBrace :: rest := by
    match text, hinside with
    | b₁ :: b₂ :: b₃ :: rest, _ =>
        simp only [List.cons_append, List.cons.injEq] at htext
        obtain ⟨rfl, rfl, rfl, -⟩ := htext
        exact ⟨rest, rfl⟩
  have hpasses := h.passes_doubled hframe hb
  have hword : ∀ d ∈ [b, b, Byte.openBrace], InkByte d := by
    have hink := inkByte_marker hb
    simp only [List.mem_cons, List.not_mem_nil, or_false]
    rintro d (rfl | rfl | rfl)
    · exact hink
    · exact hink
    · decide
  have hsame := hpasses.squeezeBehind hword
  refine ⟨[b, b, Byte.openBrace], rest, rfl, rfl, hpasses, hsame, ?_⟩
  rw [hsame]
  rcases hb with rfl | rfl <;> rfl

theorem carries_plain (hframe : Textual frame) (h : Fit (.within frame outer) (b :: rest))
    (hinked : whiteLength (uncommented (.within frame outer) (b :: rest)) = 0)
    (hb : frame = .string → b ≠ Byte.quote ∧ b ≠ Byte.backslash)
    (hdoubled : doubledMarker? (b :: (rest ++ behind)) = none)
    (hopens : opensMarker (b :: (rest ++ behind)) = false) :
    Passes (.within frame outer) (b :: rest) [b] (.within frame outer) rest ∧
      squeezeBehind (uncommented (.within frame outer) (b :: rest)) =
        b :: squeezeBehind (uncommented (.within frame outer) rest) ∧
      doubledMarker? (b :: squeezeBehind (uncommented (.within frame outer) rest)) = none ∧
      opensMarker (b :: squeezeBehind (uncommented (.within frame outer) rest)) = false := by
  have hbrace : b = Byte.dollar ∨ b = Byte.percent → rest.head? ≠ some Byte.openBrace := by
    intro hmarker hhead
    obtain ⟨rest, rfl⟩ := List.head?_eq_some_iff.mp hhead
    rcases hmarker with rfl | rfl <;> cases hopens
  have hsecond : b = Byte.dollar ∨ b = Byte.percent →
      ¬ [b, Byte.openBrace].isPrefixOf rest = true := by
    intro hmarker hprefix
    obtain ⟨rest, rfl⟩ := List.isPrefixOf_iff_prefix.mp hprefix
    rcases hmarker with rfl | rfl <;> cases hdoubled
  have hnext : (Spot.within frame outer).next b rest = .within frame outer := by
    rw [next_textual hframe hb, Spot.nextInTemplate]
    split
    · rename_i hmarker
      rw [if_neg (hsecond hmarker), if_neg (hbrace hmarker)]
    · rfl
  have hpasses := h.passes_kept (keeps_textual hframe b rest)
  rw [hnext] at hpasses
  have hsame : squeezeBehind (uncommented (.within frame outer) (b :: rest)) =
      b :: squeezeBehind (uncommented (.within frame outer) rest) := by
    rw [hpasses.uncommented] at hinked ⊢
    exact squeezeBehind_inked hinked
  -- A brace that follows in the squeezed text follows in the text.
  have hhead : ∀ {rest d}, (squeezeBehind (uncommented (.within frame outer) rest)).head? = some d →
      d ≠ Byte.space → rest.head? = some d := fun hhead hd => head?_of_textual hframe hhead hd
  refine ⟨hpasses, hsame, ?_, ?_⟩
  · refine Option.eq_none_iff_forall_ne_some.mpr fun marker hmarker => ?_
    obtain ⟨b', others, heq, hb', -⟩ := doubledMarker?_eq_some hmarker
    obtain ⟨rfl, hrest⟩ := List.cons.inj heq
    have hspace : b ≠ Byte.space := by rcases hb' with rfl | rfl <;> decide
    obtain ⟨rest, rfl⟩ := List.head?_eq_some_iff.mp (hhead (by rw [hrest]; rfl) hspace)
    have hbrace' : rest.head? ≠ some Byte.openBrace := by
      intro hhead
      obtain ⟨rest, rfl⟩ := List.head?_eq_some_iff.mp hhead
      exact hsecond hb' (by simp)
    have hrest' := (hpasses.fit.passes_kept (keeps_textual hframe b rest)).squeezeBehind
      (List.forall_mem_singleton.mpr (inkByte_marker hb'))
    rw [hrest', List.singleton_append, next_marker hframe hb'] at hrest
    have hopen := head?_of_squeezeBehind (b := Byte.openBrace)
      (by rw [(List.cons.inj hrest).2]; rfl) (by decide)
    rw [head?_uncommented (keeps_nextInTemplate hframe b rest hbrace')] at hopen
    exact hbrace' hopen
  · refine (Bool.not_eq_true _).mp fun hmarker => ?_
    obtain ⟨b', others, heq, hb'⟩ := opensMarker_eq_true hmarker
    obtain ⟨rfl, hrest⟩ := List.cons.inj heq
    exact hbrace hb' (hhead (by rw [hrest]; rfl) (by decide))

/-- Where a marker opens in a text, one opens in the squeezed text. -/
theorem carries_opensMarker (hframe : Textual frame) (h : Fit (.within frame outer) text)
    (hopens : opensMarker (text ++ behind) = true) :
    opensMarker (squeezeBehind (uncommented (.within frame outer) text)) = true ∧
      doubledMarker? (squeezeBehind (uncommented (.within frame outer) text)) = none := by
  obtain ⟨b, others, htext, hb⟩ := opensMarker_eq_true hopens
  obtain ⟨d, rest, rfl⟩ := List.exists_cons_of_ne_nil (h.textual_ne_nil hframe)
  obtain ⟨rfl, hrest⟩ := List.cons.inj htext
  cases rest with
  | nil =>
      have hfirst := h.passes_kept (keeps_textual hframe d [])
      rw [next_marker hframe hb, Spot.nextInTemplate, if_pos hb, if_neg (by simp),
        if_neg (by simp)] at hfirst
      exact absurd rfl (hfirst.fit.textual_ne_nil hframe)
  | cons e rest =>
      obtain rfl : e = Byte.openBrace := (List.cons.inj hrest).1
      have hword : ∀ e ∈ [d, Byte.openBrace], InkByte e := by
        rcases hb with rfl | rfl <;> exact forall_mem_of_all rfl
      rw [(h.passes_opening hframe hb).squeezeBehind hword]
      rcases hb with rfl | rfl <;> exact ⟨rfl, rfl⟩

def QuotedPart (text : Bytes) (n : Nat) : Prop := ∃ value, QuotedPiece text n value

def QuotedFinal (text : Bytes) (n : Nat) : Prop :=
  (n = 0 ∧ QuotedStop text) ∨ (n = 2 ∧ BrokenEscape text)

theorem inkByte_escape (hb : EscapeByte b) : InkByte b := by
  have hall : ∀ b : UInt8, EscapeByte b → InkByte b := Byte.forall_of_lt (by decide +kernel)
  exact hall b hb

theorem textByte_hexDigit (hb : (Byte.hexDigit? b).isSome = true) : TextByte b ∧ InkByte b := by
  have hall : ∀ b : UInt8, (Byte.hexDigit? b).isSome = true → TextByte b ∧ InkByte b :=
    Byte.forall_of_lt (by decide +kernel)
  exact hall b hb

theorem carries_quotedPart : Carries .string QuotedPart := by
  intro outer behind text n h hinked hpart hinside
  obtain ⟨value, hpiece⟩ := hpart
  obtain ⟨b, text, rfl⟩ := List.exists_cons_of_ne_nil (h.textual_ne_nil (Or.inl rfl))
  generalize hwhole : b :: text ++ behind = whole at hpiece
  cases hpiece with
  | marker hdoubled =>
      rw [← hwhole] at hdoubled
      obtain ⟨word, rest, htext, hlength, hpasses, hsame, hdoubled'⟩ :=
        carries_doubled (Or.inl rfl) h hdoubled hinside
      exact ⟨word, word, rest, htext, hlength, hlength, hpasses, hsame, _, .marker hdoubled'⟩
  | @escape others _ c hescape =>
      obtain ⟨e, digits, others', heq, rfl, he, hdigits, hall⟩ := escape?_eq_some hescape
      rw [← hwhole] at heq
      obtain ⟨rfl, htext⟩ := List.cons.inj heq
      obtain ⟨rest, rfl⟩ : ∃ rest, text = e :: digits ++ rest := by
        have hprefix : e :: digits <+: text ++ behind := ⟨others', htext.symm⟩
        obtain ⟨rest, hrest⟩ := List.prefix_of_prefix_length_le hprefix
          (List.prefix_append text behind) (Nat.le_of_succ_le_succ hinside)
        exact ⟨rest, hrest.symm⟩
      have hescaped : Passes (.within .string outer) (Byte.backslash :: e :: (digits ++ rest))
          [Byte.backslash, e] (.within .string outer) (digits ++ rest) := Fit.passes_escape h
      have hpasses := hescaped.trans (hescaped.fit.passes_run (Or.inl rfl) fun d hd =>
        (textByte_hexDigit (hdigits d hd)).1)
      have hword : ∀ d ∈ [Byte.backslash, e] ++ digits, InkByte d := by
        refine List.forall_mem_append.mpr ⟨?_, fun d hd => (textByte_hexDigit (hdigits d hd)).2⟩
        exact List.forall_mem_cons.mpr ⟨by decide,
          List.forall_mem_singleton.mpr (inkByte_escape he)⟩
      have hsame := hpasses.squeezeBehind hword
      refine ⟨_, _, rest, rfl, by simp, by simp, hpasses, hsame, String.utf8EncodeChar c, ?_⟩
      rw [List.cons_append, hsame]
      exact .escape (hall _)
  | @plain d rest hplain =>
      obtain ⟨rfl, rfl⟩ := List.cons.inj hwhole
      obtain ⟨hpasses, hsame, hdoubled, hopens⟩ := carries_plain (Or.inl rfl) h hinked
        (fun _ => ⟨hplain.quote, hplain.backslash⟩) hplain.doubled hplain.marker
      refine ⟨[b], [b], text, rfl, rfl, rfl, hpasses, hsame, [b], ?_⟩
      rw [hsame]
      exact .plain ⟨hdoubled, hplain.quote, hopens, hplain.backslash⟩

theorem carries_quotedFinal : Carries .string QuotedFinal := by
  intro outer behind text n h hinked hfinal hinside
  obtain ⟨b, text, rfl⟩ := List.exists_cons_of_ne_nil (h.textual_ne_nil (Or.inl rfl))
  rcases hfinal with ⟨rfl, hstop⟩ | ⟨rfl, e, others, heq, he, hescape⟩
  · refine ⟨[], [], b :: text, rfl, rfl, rfl, .refl h, rfl, Or.inl ⟨rfl, ?_⟩⟩
    rcases hstop.stops b rfl with rfl | hopens
    · have hpasses := h.passes_kept rfl
      rw [hpasses.squeezeBehind (List.forall_mem_singleton.mpr (by decide)), List.singleton_append]
      refine ⟨doubledMarker?_of_ne (by decide) _, fun d hd => Or.inl ?_⟩
      exact (Option.some.inj hd).symm
    · obtain ⟨hopens', hdoubled⟩ := carries_opensMarker (Or.inl rfl) h hopens
      exact ⟨hdoubled, fun _ _ => Or.inr hopens'⟩
  · obtain ⟨rfl, htext⟩ := List.cons.inj heq
    obtain ⟨e', rest, rfl⟩ := List.exists_cons_of_length_pos (Nat.le_of_succ_le_succ hinside)
    obtain rfl : e' = e := (List.cons.inj htext).1
    have hpasses := h.passes_escape
    rcases h.parts.1 rfl with hwhite | ⟨hwhite, hinked'⟩
    · have hink : InkByte e' := by
        refine ⟨he, ?_⟩
        rw [whiteLength_ascii he] at hwhite
        cases hblank : isBlank (Char.ofNat e'.toNat) with
        | false => rfl
        | true =>
            rw [hblank] at hwhite
            cases hwhite
      have hsame := hpasses.squeezeBehind
        (List.forall_mem_cons.mpr ⟨by decide, List.forall_mem_singleton.mpr hink⟩)
      refine ⟨[Byte.backslash, e'], [Byte.backslash, e'], rest, rfl, rfl, rfl, hpasses, hsame,
        Or.inr ⟨rfl, e', _, hsame, he, ?_⟩⟩
      refine Option.eq_none_iff_forall_ne_some.mpr fun pair hpair => ?_
      rw [hsame] at hpair
      obtain ⟨e₀, digits, others', heq', -, -, hdigits, hall⟩ := escape?_eq_some hpair
      obtain ⟨rfl, hothers⟩ := List.cons.inj (List.cons.inj heq').2
      obtain ⟨rest', rfl⟩ := prefix_of_squeezeBehind (Or.inl rfl) hpasses.fit
        ⟨others', hothers.symm⟩ fun d hd => textByte_hexDigit (hdigits d hd)
      have hwhole := hall (rest' ++ behind)
      rw [← List.append_assoc] at hwhole
      exact absurd (hwhole.symm.trans hescape) (Option.some_ne_none _)
    · have hsame := hpasses.squeezeBehind_white he hwhite hinked'
      refine ⟨[Byte.backslash, e'], [Byte.backslash, Byte.space], rest, rfl, rfl, rfl, hpasses,
        hsame, Or.inr ⟨rfl, Byte.space, _, hsame, by decide, ?_⟩⟩
      rw [hsame]
      rfl

theorem quotedLaws : LiteralLaws .string QuotedPart QuotedFinal where
  textual := Or.inl rfl
  plain b rest hb := ⟨[b], .plain ⟨doubledMarker?_of_ne ⟨hb.2.2.1, hb.2.2.2⟩ rest, hb.1,
    opensMarker_of_ne ⟨hb.2.2.1, hb.2.2.2⟩ rest, hb.2.1⟩⟩
  one b rest n hb hpart := by
    obtain ⟨value, hpiece⟩ := hpart
    cases hpiece with
    | marker h =>
        rw [doubledMarker?_of_ne ⟨hb.2.2.1, hb.2.2.2⟩] at h
        cases h
    | escape h => exact absurd rfl hb.2.1
    | plain h => rfl
  pos text n hpart := by
    obtain ⟨value, hpiece⟩ := hpart
    cases hpiece with
    | marker h => exact Nat.succ_pos 2
    | escape h =>
        obtain ⟨_, digits, _, -, rfl, -⟩ := escape?_eq_some h
        exact Nat.succ_pos (digits.length + 1)
    | plain h => exact Nat.one_pos
  exclusive text m n hpart hfinal := by
    have hbackslash : Byte.backslash ≠ Byte.dollar ∧ Byte.backslash ≠ Byte.percent := by decide
    obtain ⟨value, hpiece⟩ := hpart
    rcases hfinal with ⟨rfl, hstop⟩ | ⟨rfl, e, others, rfl, -, hescape⟩
    · cases hpiece with
      | marker h =>
          rw [hstop.doubled] at h
          cases h
      | escape h =>
          rcases hstop.stops _ rfl with hquote | hopens
          · exact absurd hquote (by decide)
          · rw [opensMarker_of_ne hbackslash] at hopens
            cases hopens
      | plain h =>
          rcases hstop.stops _ rfl with hquote | hopens
          · exact h.quote hquote
          · rw [h.marker] at hopens
            cases hopens
    · cases hpiece with
      | marker h =>
          rw [doubledMarker?_of_ne hbackslash] at h
          cases h
      | escape h =>
          rw [hescape] at h
          cases h
      | plain h => exact h.backslash rfl
  carries := carries_quotedPart
  carries_final := carries_quotedFinal

def RawPart (text : Bytes) (n : Nat) : Prop := ∃ value, RawPiece text n value

def RawFinal (text : Bytes) (n : Nat) : Prop := n = 0 ∧ RawStop text

theorem rawLaws : LiteralLaws .body RawPart RawFinal where
  textual := Or.inr rfl
  plain b rest hb := ⟨[b], .plain (doubledMarker?_of_ne ⟨hb.2.2.1, hb.2.2.2⟩ rest)
    (opensMarker_of_ne ⟨hb.2.2.1, hb.2.2.2⟩ rest)⟩
  one b rest n hb hpart := by
    obtain ⟨value, hpiece⟩ := hpart
    cases hpiece with
    | marker h =>
        rw [doubledMarker?_of_ne ⟨hb.2.2.1, hb.2.2.2⟩] at h
        cases h
    | plain => rfl
  pos text n hpart := by
    obtain ⟨value, hpiece⟩ := hpart
    cases hpiece with
    | marker => exact Nat.succ_pos 2
    | plain => exact Nat.one_pos
  exclusive text m n hpart hfinal := by
    obtain ⟨value, hpiece⟩ := hpart
    obtain ⟨rfl, hstop⟩ := hfinal
    cases hpiece with
    | marker h =>
        rw [hstop.doubled] at h
        cases h
    | plain hdoubled hopens =>
        rcases hstop.stops with hnil | hopens'
        · cases hnil
        · rw [hopens] at hopens'
          cases hopens'
  carries := by
    intro outer behind text n h hinked hpart hinside
    obtain ⟨value, hpiece⟩ := hpart
    obtain ⟨b, text, rfl⟩ := List.exists_cons_of_ne_nil (h.textual_ne_nil (Or.inr rfl))
    generalize hwhole : b :: text ++ behind = whole at hpiece
    cases hpiece with
    | marker hdoubled =>
        rw [← hwhole] at hdoubled
        obtain ⟨word, rest, htext, hlength, hpasses, hsame, hdoubled'⟩ :=
          carries_doubled (Or.inr rfl) h hdoubled hinside
        exact ⟨word, word, rest, htext, hlength, hlength, hpasses, hsame, _, .marker hdoubled'⟩
    | plain hdoubled hopens =>
        obtain ⟨rfl, rfl⟩ := List.cons.inj hwhole
        obtain ⟨hpasses, hsame, hdoubled', hopens'⟩ := carries_plain (Or.inr rfl) h hinked
          (fun hframe => Frame.noConfusion hframe) hdoubled hopens
        refine ⟨[b], [b], text, rfl, rfl, rfl, hpasses, hsame, [b], ?_⟩
        rw [hsame]
        exact .plain hdoubled' hopens'
  carries_final := by
    intro outer behind text n h hinked hfinal hinside
    obtain ⟨rfl, hstop⟩ := hfinal
    refine ⟨[], [], text, rfl, rfl, rfl, .refl h, rfl, rfl, ?_⟩
    rcases hstop.stops with hnil | hopens
    · exact absurd (List.append_eq_nil_iff.mp hnil).1 (h.textual_ne_nil (Or.inr rfl))
    · obtain ⟨hopens', hdoubled⟩ := carries_opensMarker (Or.inr rfl) h hopens
      exact ⟨hdoubled, Or.inr hopens'⟩

theorem run_of_quotedRun? {started : Bool} {fuel text value : Bytes}
    (h : quotedRun? started fuel text = some (n, value)) (hfuel : text.length ≤ fuel.length) :
    LiteralRun QuotedPart QuotedFinal text n ∧ (started = true ∨ ∃ m ≤ n, QuotedPart text m) := by
  induction fuel generalizing started text n value with
  | nil =>
      obtain rfl := List.eq_nil_of_length_eq_zero (Nat.le_zero.mp hfuel)
      cases started with
      | false => cases h
      | true =>
          cases h
          exact ⟨.final (Or.inl ⟨rfl, ⟨rfl, by simp⟩⟩), Or.inl rfl⟩
  | cons b fuel ih =>
      rcases quotedRun?_cases h with ⟨m, front, k, back, hpiece, hrun, rfl, -⟩ |
        ⟨hstarted, rfl, hstop⟩ | ⟨hstarted, rfl, hbroken⟩
      · have hpos := quotedLaws.pos text m ⟨front, hpiece⟩
        obtain ⟨hrest, -⟩ := ih hrun (by
          rw [List.length_drop]
          rw [List.length_cons] at hfuel
          omega)
        exact ⟨.part ⟨front, hpiece⟩ hrest, Or.inr ⟨m, Nat.le_add_right m k, front, hpiece⟩⟩
      · exact ⟨.final (Or.inl ⟨rfl, hstop⟩), Or.inl hstarted⟩
      · exact ⟨.final (Or.inr ⟨rfl, hbroken⟩), Or.inl hstarted⟩

theorem quotedRun?_of_run {text : Bytes} (h : LiteralRun QuotedPart QuotedFinal text n)
    {started : Bool} (hstart : started = true ∨ ∃ m, QuotedPart text m) {fuel : Bytes}
    (hfuel : text.length ≤ fuel.length) :
    ∃ value, quotedRun? started fuel text = some (n, value) := by
  induction h generalizing started fuel with
  | @final text n hfinal =>
      obtain rfl : started = true :=
        hstart.resolve_right fun ⟨m, hpart⟩ => quotedLaws.exclusive text m n hpart hfinal
      rcases hfinal with ⟨rfl, hstop⟩ | ⟨rfl, hbroken⟩
      · exact ⟨[], quotedRun?_stop hstop true fuel⟩
      · obtain ⟨d, rest, rfl, -⟩ := id hbroken
        obtain ⟨b, fuel, rfl⟩ := List.exists_cons_of_length_pos
          (Nat.lt_of_lt_of_le (Nat.succ_pos _) hfuel)
        exact ⟨[], quotedRun?_broken hbroken b fuel⟩
  | @part text m n hpart hrest ih =>
      have hpos := quotedLaws.pos text m hpart
      obtain ⟨front, hpiece⟩ := hpart
      have hlength := hpiece.le_length
      obtain ⟨b, fuel, rfl⟩ := List.exists_cons_of_length_pos (l := fuel) (by omega)
      have hshort : (text.drop m).length ≤ fuel.length := by
        rw [List.length_drop]
        rw [List.length_cons] at hfuel
        omega
      obtain ⟨value, hrun⟩ := ih (Or.inl rfl) hshort
      refine ⟨front ++ value, ?_⟩
      rw [quotedRun?_piece hpiece, hrun]
      rfl

theorem run_of_rawRun {fuel text : Bytes} (hfuel : text.length ≤ fuel.length) :
    LiteralRun RawPart RawFinal text (rawRun (fun _ => false) fuel text).1 ∧
      (0 < (rawRun (fun _ => false) fuel text).1 →
        ∃ m ≤ (rawRun (fun _ => false) fuel text).1, RawPart text m) := by
  induction fuel generalizing text with
  | nil =>
      obtain rfl := List.eq_nil_of_length_eq_zero (Nat.le_zero.mp hfuel)
      exact ⟨.final ⟨rfl, rfl, Or.inl rfl⟩, fun hpos => absurd hpos (Nat.lt_irrefl 0)⟩
  | cons b fuel ih =>
      rcases rawPiece_or_stop text with ⟨m, value, hpiece⟩ | hstop
      · have hpos := rawLaws.pos text m ⟨value, hpiece⟩
        have hshort : (text.drop m).length ≤ fuel.length := by
          rw [List.length_drop]
          rw [List.length_cons] at hfuel
          omega
        obtain ⟨hrest, -⟩ := ih hshort
        rw [rawRun_piece hpiece rfl]
        exact ⟨.part ⟨value, hpiece⟩ hrest, fun _ => ⟨m, Nat.le_add_right m _, value, hpiece⟩⟩
      · rw [rawRun_stop hstop]
        exact ⟨.final ⟨rfl, hstop⟩, fun hpos => absurd hpos (Nat.lt_irrefl 0)⟩

theorem rawRun_of_run {text : Bytes} (h : LiteralRun RawPart RawFinal text n) {fuel : Bytes}
    (hfuel : text.length ≤ fuel.length) : (rawRun (fun _ => false) fuel text).1 = n := by
  induction h generalizing fuel with
  | final hfinal =>
      obtain ⟨rfl, hstop⟩ := hfinal
      rw [rawRun_stop hstop]
  | @part text m n hpart hrest ih =>
      have hpos := rawLaws.pos text m hpart
      obtain ⟨value, hpiece⟩ := hpart
      have hlength : m ≤ text.length := by
        cases hpiece with
        | marker h => exact doubledMarker?_le h
        | plain => simp
      obtain ⟨b, fuel, rfl⟩ := List.exists_cons_of_length_pos (l := fuel) (by omega)
      have hshort : (text.drop m).length ≤ fuel.length := by
        rw [List.length_drop]
        rw [List.length_cons] at hfuel
        omega
      rw [rawRun_piece hpiece rfl, ih hshort]

end

/-- Two readers of a template, one of the text itself and one of the text without comments and with
single spaces, stand at the same place of it, and white space is there for both. -/
structure TracksText (behind : Bytes) (frame : Frame) (outer : List Frame) (text : Bytes)
    (c c' : Cursor) : Prop where
  rest : c.rest = text ++ behind
  fit : Fit (.within frame outer) text
  tidy : c'.rest = squeezeBehind (uncommented (.within frame outer) text)

section

variable {behind text text' : Bytes} {frame : Frame} {outer : List Frame} {c c' d : Cursor}
  {n : Nat}

theorem inside_drop (hle : n ≤ (text ++ behind).length)
    (hdrop : (text ++ behind).drop n = text' ++ behind) :
    n ≤ text.length ∧ text' = text.drop n := by
  have hlength := congrArg List.length hdrop
  rw [List.length_drop, List.length_append, List.length_append] at hlength
  rw [List.length_append] at hle
  have hinside : n ≤ text.length := by omega
  rw [List.drop_append_of_le_length hinside] at hdrop
  exact ⟨hinside, (List.append_cancel_right hdrop).symm⟩

theorem TracksText.nonempty (h : TracksText behind frame outer text c c') (hframe : Textual frame) :
    0 < c'.rest.length := by
  rw [h.tidy]
  refine List.length_pos_of_ne_nil fun hnil => h.fit.squeeze_ne_nil hframe ?_
  rcases squeezeBehind_cases (uncommented (.within frame outer) text) with hsame | hsame
  · rw [← hsame, hnil]
  · rw [hsame] at hnil
    cases hnil

theorem LiteralRun.pos {part final : Bytes → Nat → Prop} (laws : LiteralLaws frame part final)
    (h : LiteralRun part final text n) {m : Nat} (hpart : part text m) : 0 < n := by
  cases h with
  | final hfinal => exact absurd hfinal (laws.exclusive _ _ _ hpart)
  | part hpart _ => exact Nat.add_pos_left (laws.pos _ _ hpart) _

/-- Text of a quoted string is read from both texts. -/
theorem retrace_quotedText {value : String} (h : TracksText behind .string outer text c c')
    (hrun : quotedText c = .ok (value, d)) (hd : d.rest = text' ++ behind) :
    ∃ value' d', quotedText c' = .ok (value', d') ∧ TracksText behind .string outer text' d d' ∧
      d'.rest.length < c'.rest.length := by
  obtain ⟨whole, _, hahead, hrun⟩ := bind_eq_ok.mp hrun
  cases hahead
  cases hquoted : quotedRun? false c.rest c.rest with
  | none => simp [hquoted, miss_eq] at hrun
  | some pair =>
      obtain ⟨n, bytes⟩ := pair
      simp only [hquoted] at hrun
      obtain ⟨_, c₁, htake, hrun⟩ := bind_eq_ok.mp hrun
      rw [discard_eq, take_eq] at htake
      cases htake
      cases hrun
      have hle := quotedRun?_le hquoted
      obtain ⟨hrun, hstart⟩ := run_of_quotedRun? hquoted (Nat.le_refl _)
      obtain ⟨m, hm, hpart⟩ := hstart.resolve_left (by decide)
      rw [h.rest] at hle hrun hpart hd
      obtain ⟨hinside, rfl⟩ := inside_drop hle hd
      obtain ⟨k, hpart'⟩ := quotedLaws.exists_part h.fit hpart (Nat.le_trans hm hinside)
      obtain ⟨n', hfit, hrun', hdrop⟩ := quotedLaws.retrace h.fit hrun hinside (Or.inl rfl)
      rw [← h.tidy] at hpart' hrun' hdrop
      have hpos := LiteralRun.pos quotedLaws hrun' hpart'
      obtain ⟨bytes', hquoted'⟩ : ∃ value, quotedRun? false c'.rest c'.rest = some (n', value) :=
        quotedRun?_of_run hrun' (Or.inr ⟨k, hpart'⟩) (Nat.le_refl _)
      refine ⟨Text.ofBytes bytes', ⟨c'.pos + n', c'.rest.drop n'⟩, ?_,
        ⟨by rw [h.rest]; exact hd, hfit, hdrop⟩, ?_⟩
      · simp only [quotedText, bind_eq, ahead_eq, hquoted', discard_eq, take_eq, pure_eq]
      · have hnonempty := h.nonempty (Or.inl rfl)
        rw [List.length_drop]
        omega

theorem quotedText_miss (h : QuotedStop c.rest) : quotedText c = .error .miss := by
  simp only [quotedText, bind_eq, ahead_eq, quotedRun?_stop h, Bool.false_eq_true, ↓reduceIte,
    miss_eq]

theorem rawText_eq (stops : Bytes → Bool) (c : Cursor) :
    rawText stops c = if 0 < (rawRun stops c.rest c.rest).1 then
      .ok (Text.ofBytes (rawRun stops c.rest c.rest).2,
        ⟨c.pos + (rawRun stops c.rest c.rest).1, c.rest.drop (rawRun stops c.rest c.rest).1⟩)
      else .error .miss := by
  by_cases hpos : 0 < (rawRun stops c.rest c.rest).1
  · simp only [rawText, bind_eq, ahead_eq, require_eq, hpos, decide_true, ↓reduceIte, discard_eq,
      take_eq, pure_eq]
  · simp only [rawText, bind_eq, ahead_eq, require_eq, hpos, decide_false, Bool.false_eq_true,
      ↓reduceIte]

/-- Text of a directive is read from both texts. -/
theorem retrace_rawText {value : String} (h : TracksText behind .body outer text c c')
    (hrun : rawText (fun _ => false) c = .ok (value, d)) (hd : d.rest = text' ++ behind) :
    ∃ value' d', rawText (fun _ => false) c' = .ok (value', d') ∧
      TracksText behind .body outer text' d d' ∧ d'.rest.length < c'.rest.length := by
  rw [rawText_eq] at hrun
  split at hrun
  · rename_i hpos
    cases hrun
    have hle := rawRun_le (fun _ => false) c.rest c.rest
    obtain ⟨hrun, hstart⟩ := run_of_rawRun (Nat.le_refl c.rest.length)
    obtain ⟨m, hm, hpart⟩ := hstart hpos
    generalize (rawRun (fun _ => false) c.rest c.rest).1 = n at hle hrun hd hm hpart ⊢
    rw [h.rest] at hle hrun hpart hd
    obtain ⟨hinside, rfl⟩ := inside_drop hle hd
    obtain ⟨k, hpart'⟩ := rawLaws.exists_part h.fit hpart (Nat.le_trans hm hinside)
    obtain ⟨n', hfit, hrun', hdrop⟩ := rawLaws.retrace h.fit hrun hinside (Or.inl rfl)
    rw [← h.tidy] at hpart' hrun' hdrop
    have hpos' := LiteralRun.pos rawLaws hrun' hpart'
    have hraw := rawRun_of_run hrun' (Nat.le_refl c'.rest.length)
    refine ⟨Text.ofBytes (rawRun (fun _ => false) c'.rest c'.rest).2,
      ⟨c'.pos + n', c'.rest.drop n'⟩, ?_, ⟨by rw [h.rest]; exact hd, hfit, hdrop⟩, ?_⟩
    · rw [rawText_eq, hraw, if_pos hpos']
    · have hnonempty := h.nonempty (Or.inr rfl)
      rw [List.length_drop]
      omega
  · cases hrun

theorem rawText_miss (h : RawStop c.rest) (stops : Bytes → Bool) :
    rawText stops c = .error .miss := by
  rw [rawText_eq, rawRun_stop h, if_neg (Nat.lt_irrefl 0)]

end

end HclToJson.Grammar
