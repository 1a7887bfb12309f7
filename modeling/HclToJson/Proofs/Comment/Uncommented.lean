import HclToJson.Proofs.Comment.OnePass
import HclToJson.Proofs.Text.Normalize

namespace HclToJson.Comment

open Text

/-- A comment opens at a byte with `after` behind it. -/
abbrev Opens (b : UInt8) (after : Bytes) : Prop :=
  opensLine b after = true ∨ (b = Byte.slash ∧ after.head? = some Byte.star)

/-- From a position of the quotes on, a text is on one line and no comment opens in it. -/
def Uncommented : Quote → Bytes → Prop
  | _, [] => True
  | quote, b :: rest =>
      b ≠ Byte.newline ∧ ¬ (quote.next b = .outside ∧ Opens b rest) ∧
        Uncommented (quote.next b) rest

theorem length_scan_le (place : Place) (text : Bytes) : (scan place text).length ≤ text.length := by
  fun_induction scan place text
  all_goals simp only [List.length_cons, List.length_nil] at *
  all_goals omega

theorem scan_eq_self_iff {quote : Quote} (h : quote.WellMarked) (text : Bytes) :
    scan (Region.code quote).place text = text ↔ Uncommented quote text := by
  induction text generalizing quote with
  | nil => simp [scan, Uncommented]
  | cons b rest ih =>
      have hshort : ∀ place text, text.length ≤ rest.length → scan place text ≠ b :: rest := by
        intro place text htext heq
        have hle := length_scan_le place text
        rw [heq, List.length_cons] at hle
        omega
      rw [scan_code h, Uncommented, ← ih (Quote.WellMarked.next h b)]
      by_cases hnewline : b = Byte.newline
      · have hspace : Byte.newline ≠ Byte.space := by decide
        simp [hnewline, hspace.symm]
      · rw [if_neg hnewline]
        by_cases hblock : quote.next b = .outside ∧ b = Byte.slash ∧ rest.head? = some Byte.star
        · rw [if_pos hblock]
          simp only [hshort _ rest.tail (by simp), false_iff]
          exact fun hall => hall.2.1 ⟨hblock.1, Or.inr hblock.2⟩
        · rw [if_neg hblock]
          by_cases hline : quote.next b = .outside ∧ opensLine b rest = true
          · rw [if_pos hline]
            simp only [hshort _ rest (Nat.le_refl _), false_iff]
            exact fun hall => hall.2.1 ⟨hline.1, Or.inl hline.2⟩
          · rw [if_neg hline, List.cons.injEq]
            have hopens : ¬ (quote.next b = .outside ∧ Opens b rest) := by
              rintro ⟨hout, hopens | hopens⟩
              · exact hline ⟨hout, hopens⟩
              · exact hblock ⟨hout, hopens⟩
            simp only [true_and, ne_eq, hnewline, not_false_eq_true, hopens]

theorem strip_eq_self_iff (text : Bytes) : strip text = text ↔ Uncommented .outside text := by
  have hout : Quote.outside.WellMarked := trivial
  rw [strip, stripLines_stripBlocks]
  exact scan_eq_self_iff hout text

/-- A byte that means nothing to the removal of comments. -/
abbrev Inert (b : UInt8) : Prop :=
  ¬ IsMark b ∧ b ≠ Byte.backslash ∧ b ≠ Byte.newline ∧ b ≠ Byte.hash ∧ b ≠ Byte.slash ∧
    b ≠ Byte.star

/-- Where the quotes are behind a byte that means nothing. -/
def Quote.settle : Quote → Quote
  | .outside => .outside
  | .inside mark | .escaped mark => .inside mark

theorem Quote.settle_settle (quote : Quote) : quote.settle.settle = quote.settle := by
  cases quote <;> rfl

theorem Quote.WellMarked.settle {quote : Quote} (h : quote.WellMarked) : quote.settle.WellMarked := by
  cases quote <;> exact h

theorem Quote.WellMarked.next_inert {quote : Quote} (h : quote.WellMarked) {b : UInt8}
    (hb : Inert b) : quote.next b = quote.settle := by
  obtain ⟨hmark, hbackslash, -⟩ := hb
  cases quote with
  | outside => rw [Quote.next, if_neg hmark, Quote.settle]
  | inside mark =>
      have hne : b ≠ mark := fun heq => hmark (heq ▸ h)
      rw [Quote.next, if_neg hbackslash, if_neg hne, Quote.settle]
  | escaped mark => rfl

theorem Inert.not_opens {b : UInt8} (h : Inert b) (after : Bytes) : ¬ Opens b after := by
  obtain ⟨-, -, -, hhash, hslash, -⟩ := h
  simp [Opens, opensLine, hhash, hslash]

theorem Inert.ne_delimiter {b d : UInt8} (h : Inert b) (hd : d ∈ [Byte.slash, Byte.star]) :
    b ≠ d := by
  obtain ⟨-, -, -, -, hslash, hstar⟩ := h
  rintro rfl
  simp [hslash, hstar] at hd

theorem uncommented_cons_inert {quote : Quote} (h : quote.WellMarked) {b : UInt8} (hb : Inert b)
    (rest : Bytes) : Uncommented quote (b :: rest) ↔ Uncommented quote.settle rest := by
  rw [Uncommented, h.next_inert hb]
  simp [hb.2.2.1, hb.not_opens rest]

theorem Opens.mono {b : UInt8} {after after' : Bytes}
    (h : ∀ d ∈ [Byte.slash, Byte.star], after.head? = some d → after'.head? = some d)
    (hopens : Opens b after) : Opens b after' := by
  simp only [Opens, opensLine, Bool.or_eq_true, Bool.and_eq_true, decide_eq_true_eq] at hopens ⊢
  rcases hopens with (hhash | ⟨hslash, hnext⟩) | ⟨hslash, hnext⟩
  · exact Or.inl (Or.inl hhash)
  · exact Or.inl (Or.inr ⟨hslash, h _ (by simp) hnext⟩)
  · exact Or.inr ⟨hslash, h _ (by simp) hnext⟩

/-! ### Characters -/

/-- The byte of a character of ASCII, and a byte that means nothing for any other. -/
def asciiByte (c : Char) : UInt8 := if c.toNat ≤ 0x7F then UInt8.ofNat c.toNat else 0x80

theorem asciiByte_ofNat {b : UInt8} (h : b ≤ 0x7F) : asciiByte (Char.ofNat b.toNat) = b :=
  Byte.forall_of_lt (p := fun b => b ≤ 0x7F → asciiByte (Char.ofNat b.toNat) = b)
    (by decide +kernel) b h

theorem inert_asciiByte_ofNat {n : Nat} (h : 0x80 ≤ n) : Inert (asciiByte (Char.ofNat n)) := by
  by_cases hvalid : n.isValidChar
  · have hchar : Char.ofNat n = Char.ofNatAux n hvalid := dif_pos hvalid
    have hn : (Char.ofNatAux n hvalid).toNat = n := rfl
    have hlarge : ¬ n ≤ 0x7F := by omega
    rw [hchar, asciiByte, hn, if_neg hlarge]
    decide
  · have hchar : Char.ofNat n = '\x00' := dif_neg hvalid
    rw [hchar]
    decide

theorem inert_of_le {b : UInt8} (h : 0x80 ≤ b) : Inert b :=
  Byte.forall_of_lt (p := fun b => 0x80 ≤ b → Inert b) (by decide +kernel) b h

theorem first_cases (b : UInt8) :
    (b ≤ 0x7F ∧ Reading.first b = (.ready, [Char.ofNat b.toNat])) ∨
    (Inert b ∧ (Reading.first b = (.ready, [replacement]) ∨
      ∃ owed low high value, Reading.first b = (.inside owed low high value, []))) := by
  by_cases hb : b ≤ 0x7F
  · exact Or.inl ⟨hb, by rw [Reading.first, if_pos hb]⟩
  · have hle : 0x80 ≤ b := by
      rw [UInt8.le_iff_toNat_le] at hb ⊢
      have hbound : (0x7F : UInt8).toNat = 0x7F ∧ (0x80 : UInt8).toNat = 0x80 := ⟨rfl, rfl⟩
      omega
    refine Or.inr ⟨inert_of_le hle, ?_⟩
    rw [Reading.first, if_neg hb]
    repeat' split
    all_goals first | exact Or.inl rfl | exact Or.inr ⟨_, _, _, _, rfl⟩

theorem next_inside_cases {owed value : Nat} {low high : UInt8}
    (h : (Reading.inside owed low high value).Proper) (b : UInt8) :
    (Inert b ∧
      ((∃ n, 0x80 ≤ n ∧
          (Reading.inside owed low high value).next b = (.ready, [Char.ofNat n])) ∨
        ∃ owed' low' high' value',
          (Reading.inside owed low high value).next b = (.inside owed' low' high' value', []))) ∨
    (Reading.inside owed low high value).next b =
      ((Reading.first b).1, replacement :: (Reading.first b).2) := by
  by_cases hb : low ≤ b ∧ b ≤ high
  · refine Or.inl ⟨inert_of_le (UInt8.le_trans h.1 hb.1), ?_⟩
    cases owed with
    | zero =>
        have hvalue : 2 ≤ value := h.2
        exact Or.inl ⟨value * 64 + (b.toNat - 0x80), by omega, by
          simp only [Reading.next, hb, and_self, ↓reduceIte]⟩
    | succ owed =>
        exact Or.inr ⟨owed, 0x80, 0xBF, value * 64 + (b.toNat - 0x80), by
          simp only [Reading.next, hb, and_self, ↓reduceIte]⟩
  · exact Or.inr (by simp only [Reading.next, hb, ↓reduceIte])

theorem inert_replacement : Inert (asciiByte replacement) := by
  decide

theorem exists_run_inside {reading : Reading} (h : reading.Proper) (hne : reading ≠ .ready)
    (text : Bytes) :
    ∃ c chars, reading.run text = c :: chars ∧ Inert (asciiByte c) := by
  induction text generalizing reading with
  | nil =>
      cases reading with
      | ready => exact absurd rfl hne
      | inside => exact ⟨replacement, [], rfl, inert_replacement⟩
  | cons b rest ih =>
      cases reading with
      | ready => exact absurd rfl hne
      | inside owed low high value =>
          have hproper := h.next b
          rcases next_inside_cases h b with ⟨-, ⟨n, hn, hnext⟩ | ⟨_, _, _, _, hnext⟩⟩ | hnext
          · rw [Reading.run, hnext]
            exact ⟨_, _, rfl, inert_asciiByte_ofNat hn⟩
          · rw [hnext] at hproper
            rw [Reading.run, hnext]
            exact ih hproper (by simp)
          · rw [Reading.run, hnext]
            exact ⟨_, _, rfl, inert_replacement⟩

theorem head?_run_ready {d : UInt8} (hd : d ∈ [Byte.slash, Byte.star]) (text : Bytes) :
    text.head? = some d ↔ ((Reading.ready.run text).map asciiByte).head? = some d := by
  cases text with
  | nil => simp [Reading.run, Reading.finish]
  | cons b rest =>
      rcases first_cases b with ⟨hb, hfirst⟩ | ⟨hb, hfirst | ⟨_, _, _, _, hfirst⟩⟩
      · simp [Reading.run, Reading.next, hfirst, asciiByte_ofNat hb]
      · simp [Reading.run, Reading.next, hfirst, hb.ne_delimiter hd,
          inert_replacement.ne_delimiter hd]
      · have hproper := Reading.proper_first b
        rw [hfirst] at hproper
        obtain ⟨c, chars, hrun, hc⟩ := exists_run_inside hproper (by simp) rest
        simp [Reading.run, Reading.next, hfirst, hrun, hb.ne_delimiter hd, hc.ne_delimiter hd]

/-- Where the quotes are while a reader is at a character that starts at `quote`. -/
def Quote.during (quote : Quote) : Reading → Quote
  | .ready => quote
  | .inside .. => quote.settle

/-- It makes no difference whether a text is taken by the byte or by the character. -/
theorem uncommented_run {reading : Reading} (h : reading.Proper) {quote : Quote}
    (hquote : quote.WellMarked) (text : Bytes) :
    Uncommented (quote.during reading) text ↔
      Uncommented quote ((reading.run text).map asciiByte) := by
  have hbetween : Reading.ready.Proper := trivial
  -- The bytes of a longer character are inert one by one, as the character is that they make.
  induction text generalizing reading quote with
  | nil =>
      cases reading with
      | ready => simp [Reading.run, Reading.finish, Uncommented]
      | inside =>
          simp [Reading.run, Reading.finish, uncommented_cons_inert hquote inert_replacement,
            Uncommented]
  | cons b rest ih =>
      have hready : ∀ {quote : Quote}, quote.WellMarked → (Uncommented quote (b :: rest) ↔
          Uncommented quote ((Reading.ready.run (b :: rest)).map asciiByte)) := by
        intro quote hquote
        have hproper := Reading.proper_first b
        rw [Reading.run, Reading.next]
        rcases first_cases b with ⟨hb, hfirst⟩ | ⟨hb, hfirst | ⟨_, _, _, _, hfirst⟩⟩
        · have hopens : Opens b rest ↔ Opens b ((Reading.ready.run rest).map asciiByte) :=
            ⟨Opens.mono fun d hd => (head?_run_ready hd rest).mp,
              Opens.mono fun d hd => (head?_run_ready hd rest).mpr⟩
          rw [hfirst, List.singleton_append, List.map_cons, asciiByte_ofNat hb, Uncommented,
            Uncommented, hopens]
          exact and_congr_right fun _ => and_congr_right fun _ =>
            ih hbetween (hquote.next b)
        · rw [hfirst, List.singleton_append, List.map_cons, uncommented_cons_inert hquote hb,
            uncommented_cons_inert hquote inert_replacement]
          exact ih hbetween hquote.settle
        · rw [hfirst] at hproper ⊢
          rw [uncommented_cons_inert hquote hb]
          exact ih hproper hquote
      cases reading with
      | ready => exact hready hquote
      | inside owed low high value =>
          have hproper := h.next b
          rw [Quote.during, Reading.run]
          rcases next_inside_cases h b with ⟨hb, ⟨n, hn, hnext⟩ | ⟨_, _, _, _, hnext⟩⟩ | hnext
          · rw [hnext, List.singleton_append, List.map_cons,
              uncommented_cons_inert hquote.settle hb, Quote.settle_settle,
              uncommented_cons_inert hquote (inert_asciiByte_ofNat hn)]
            exact ih hbetween hquote.settle
          · rw [hnext] at hproper ⊢
            rw [uncommented_cons_inert hquote.settle hb, Quote.settle_settle]
            exact ih hproper hquote
          · -- The character is cut off, and the byte is read as if between characters.
            rw [hnext, List.cons_append, List.map_cons,
              uncommented_cons_inert hquote inert_replacement]
            exact hready hquote.settle

theorem uncommented_decode {quote : Quote} (h : quote.WellMarked) (text : Bytes) :
    Uncommented quote text ↔ Uncommented quote ((decode text).map asciiByte) := by
  have hbetween : Reading.ready.Proper := trivial
  exact uncommented_run hbetween h text

/-! ### White space -/

theorem inert_of_isBlank {c : Char} (h : isBlank c = true) (hnewline : asciiByte c ≠ Byte.newline) :
    Inert (asciiByte c) := by
  by_cases hc : c.toNat ≤ 0x7F
  · have hall : ∀ n < 0x80, isBlank (Char.ofNat n) = true →
        asciiByte (Char.ofNat n) = Byte.newline ∨ Inert (asciiByte (Char.ofNat n)) := by
      decide
    have hofNat := hall c.toNat (by omega)
    rw [Char.ofNat_toNat] at hofNat
    exact (hofNat h).resolve_left hnewline
  · rw [asciiByte, if_neg hc]
    decide

theorem head?_collapseBehind {d : UInt8} (hd : d ∈ [Byte.slash, Byte.star]) {text : List Char}
    (h : ((collapseBehind text).map asciiByte).head? = some d) :
    (text.map asciiByte).head? = some d := by
  cases text with
  | nil => simp [collapseBehind] at h
  | cons c rest =>
      by_cases hc : isBlank c = true
      · have hspace : asciiByte ' ' ≠ d := by
          rintro rfl
          exact absurd hd (by decide)
        rw [collapseBehind, if_pos hc] at h
        split at h <;> simp [hspace] at h
      · have hc' : isBlank c = false := by simpa using hc
        rw [collapseBehind, if_neg hc, collapse_cons_inked hc'] at h
        exact h

/-- Shortening the white space between words lets no comment open. -/
theorem Uncommented.collapse {quote : Quote} (hquote : quote.WellMarked) {text : List Char}
    (h : Uncommented quote (text.map asciiByte)) :
    (quote.settle = quote → Uncommented quote ((collapse text).map asciiByte)) ∧
      Uncommented quote ((collapseBehind text).map asciiByte) := by
  have hspace : Inert (asciiByte ' ') := by decide
  -- Behind a backslash the white space that is dropped would have been what is escaped.
  induction text generalizing quote with
  | nil => exact ⟨fun _ => h, h⟩
  | cons c rest ih =>
      rw [List.map_cons] at h
      by_cases hc : isBlank c = true
      · have hinert : Inert (asciiByte c) := inert_of_isBlank hc h.1
        rw [uncommented_cons_inert hquote hinert] at h
        have hrest := (ih hquote.settle h).1 quote.settle_settle
        rw [collapse_cons_blank hc, collapseBehind, if_pos hc]
        constructor
        · intro hsettled
          rwa [hsettled] at hrest
        · split
          · trivial
          · rw [List.map_cons, uncommented_cons_inert hquote hspace]
            exact hrest
      · have hc' : isBlank c = false := by simpa using hc
        obtain ⟨hnewline, hopens, hrest⟩ := h
        have hopens' : ¬ (quote.next (asciiByte c) = .outside ∧
            Opens (asciiByte c) ((collapseBehind rest).map asciiByte)) := by
          rintro ⟨hout, hopen⟩
          exact hopens ⟨hout, hopen.mono fun d hd => head?_collapseBehind hd⟩
        have hword : Uncommented quote ((c :: collapseBehind rest).map asciiByte) :=
          ⟨hnewline, hopens', (ih (hquote.next _) hrest).2⟩
        rw [collapseBehind, if_neg hc, collapse_cons_inked hc']
        exact ⟨fun _ => hword, hword⟩

/-- If the text without its comments has no comments, then neither has the text that is quoted. -/
theorem strip_encode_normalize {text : Bytes} (h : strip (strip text) = strip text) :
    strip (encode (Source.normalize text)) = encode (Source.normalize text) := by
  have hout : Quote.outside.WellMarked := trivial
  have hdecoded := (uncommented_decode hout _).mp ((strip_eq_self_iff _).mp h)
  have hcollapsed := (hdecoded.collapse hout).1 rfl
  rw [strip_eq_self_iff, uncommented_decode hout, decode_encode, Source.normalize,
    String.toList_ofList]
  exact hcollapsed

theorem normalize_encode_normalize {text : Bytes} (h : strip (strip text) = strip text) :
    Source.normalize (encode (Source.normalize text)) = Source.normalize text := by
  rw [Source.normalize, strip_encode_normalize h, decode_encode, Source.normalize,
    String.toList_ofList, collapse_collapse]

end HclToJson.Comment
